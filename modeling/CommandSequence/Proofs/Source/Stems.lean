import CommandSequence.Proofs.Source.Directives
import CommandSequence.Proofs.Source.Sections

/-!
# Stems where a line of a section begins

In a section the stem of a command competes with the time tags of the requests that may follow. A
word before a blank is taken for a time tag or a ground epoch if and only if it reads as one
(`Line.Run.first_of_stem`); every other word, and every word before the end of its line, is the
stem. So the check of stems refuses exactly the words that would be mistaken.

The text may stand after the heading of the section or after any of its commands, with metadata
below it or without (`Line.EndsInSection`). Each of these lines leads to a place in the section
(`Line.EndsInSection.inSection`), and all those places look for the same kinds as far as words are
concerned.
-/

namespace CommandSequence.Source

open Character

variable {kind : Terminal} {kinds : List Terminal} {word rest : List Char}

/-! ## Words that read as time tags -/

/-- Digits and the mark of a clock may stand in every time tag but the one for completion. -/
theorem Terminal.tagInner_of_digit_or_mark {c : Char} (hkind : kind.tagInner 'T' = true)
    (hc : (isAsciiDigit c || c == 'T') = true) : kind.tagInner c = true := by
  rcases Bool.or_eq_true_iff.1 hc with hdigit | hmark
  · cases kind
    all_goals first | simp [tagInner, isTimestamp, isClock, hdigit]; done | cases hkind
  · rw [beq_iff_eq.1 hmark]
    exact hkind

/-- Digits and marks after a first digit are the body of a time tag. -/
theorem Terminal.isTagBody_cons {c : Char} {more : List Char} (hkind : kind.tagInner 'T' = true)
    (hc : isAsciiDigit c = true) (hmore : ∀ d ∈ more, (isAsciiDigit d || d == 'T') = true) :
    kind.isTagBody (c :: more) = true := by
  have hfirst : kind.tagInner c = true := tagInner_of_digit_or_mark hkind (by rw [hc]; rfl)
  have hrest : more.all kind.tagInner = true :=
    List.all_eq_true.2 fun d hd => tagInner_of_digit_or_mark hkind (hmore d hd)
  simp only [isTagBody, tagSign_of_isAsciiDigit hc, Bool.false_and, Bool.false_eq_true, if_false,
    hc, List.all_cons, hfirst, hrest, Bool.and_self]

/-- A word that reads as a time tag is the text of one, or of a ground epoch. -/
theorem exists_tag (hword : isIdentifier word = true) (h : readsAsTimeTag word = true) :
    ∃ kind ∈ openers, ∃ letter body, kind.tagLetter? = some letter ∧ word = letter :: body ∧
      kind.isTagBody body = true := by
  cases word with
  | nil => cases hword
  | cons letter body =>
    have hbody : ∀ c ∈ body, isWord c = true :=
      (List.forall_mem_cons.1 (Lexes.isWord_of_isIdentifier hword)).2
    simp only [readsAsTimeTag, Lexes.dropFinalNewline_of_isWord hbody] at h
    split at h
    · next hletter =>
      cases beq_iff_eq.1 hletter
      cases List.isEmpty_iff.1 h
      exact ⟨.commandComplete, by decide, 'C', [], rfl, rfl, rfl⟩
    · split at h
      · next hletter =>
        have hkind : ∃ kind ∈ openers, kind.tagLetter? = some letter ∧
            kind.tagInner 'T' = true := by
          simp only [List.contains_cons, List.contains_nil, Bool.or_false, Bool.or_eq_true,
            beq_iff_eq] at hletter
          rcases hletter with rfl | rfl | rfl | rfl
          · exact ⟨.absoluteTime, by decide⟩
          · exact ⟨.commandRelative, by decide⟩
          · exact ⟨.epochRelative, by decide⟩
          · exact ⟨.groundEpoch, by decide⟩
        obtain ⟨kind, hmem, hkind, hinner⟩ := hkind
        refine ⟨kind, hmem, letter, body, hkind, rfl, ?_⟩
        cases body with
        | nil => rfl
        | cons c more =>
          simp only [Bool.and_eq_true] at h
          exact Terminal.isTagBody_cons hinner h.1 (List.all_eq_true.1 h.2)
      · cases h

/-- Before a blank, a word that reads as a time tag is one. -/
theorem Lexes.tag_of_word {blank : Char} (hkinds : openers ⊆ kinds)
    (hword : isIdentifier word = true) (hreads : readsAsTimeTag word = true)
    (hblank : Terminal.isBlank blank = true) :
    ∃ kind ∈ openers, Lexes kinds (word ++ blank :: rest) kind word (blank :: rest) := by
  obtain ⟨kind, hmem, letter, body, hletter, rfl, hbody⟩ := exists_tag hword hreads
  exact ⟨kind, hmem, (Begins.tag hletter hbody hblank).lexes (hkinds hmem)⟩

/-- Before the end of a line no word is a time tag. -/
theorem Lexes.cut?_tag_eq_none_of_newline {letter : Char} (hletter : kind.tagLetter? = some letter)
    (hword : isIdentifier word = true) : kind.cut? (word ++ ('\n' : Char) :: rest) = none := by
  cases hcut : kind.cut? (word ++ ('\n' : Char) :: rest) with
  | none => rfl
  | some found =>
    obtain ⟨lexeme, left⟩ := found
    rw [Terminal.cut?_of_tagLetter hletter] at hcut
    obtain ⟨text, body, htext, hbody, -, hblank⟩ := Terminal.cutTag?_eq_some hcut
    cases word with
    | nil => cases hword
    | cons c more =>
      obtain ⟨rfl, rfl⟩ := List.cons.inj htext
      have hmore : ∀ c ∈ more, isWord c = true :=
        (List.forall_mem_cons.1 (Lexes.isWord_of_isIdentifier hword)).2
      have htag : kind.isTagBody more = true := by
        rcases of_cutTagBody_word hmore hbody hblank with rfl | ⟨d, tail, rfl, hdigit, hinner⟩
        · rfl
        · simp only [Terminal.isTagBody, Terminal.tagSign_of_isAsciiDigit hdigit, Bool.false_and,
            Bool.false_eq_true, if_false, hdigit, List.all_eq_true.2 hinner, Bool.and_self]
      have hends : ∀ c, (('\n' : Char) :: rest).head? = some c →
          c ∈ [(' ' : Char), '\t', '\n'] := by
        intro c hc
        cases hc
        decide
      have hcutBody := Terminal.cutTagBody_append htag hends
      cases hcutBody.symm.trans hbody
      cases hblank

/-- Before the end of a line every word is an identifier, where no words are looked for. -/
theorem Lexes.identifier_of_newline (hkind : .identifier ∈ kinds)
    (hkinds : ∀ k ∈ worded, k.tagLetter? = none → k ∉ kinds) (hword : isIdentifier word = true) :
    Lexes kinds (word ++ ('\n' : Char) :: rest) .identifier word ('\n' :: rest) := by
  refine identifier hkind hword rfl fun k hk hmem => ?_
  cases hletter : k.tagLetter? with
  | none => exact absurd hmem (hkinds k hk hletter)
  | some letter => exact cut?_tag_eq_none_of_newline hletter hword

/-! ## Where a line of a section begins -/

open ReadBack (InSection OpensCommand)

/-- Every time tag and every ground epoch may begin a line of a section. -/
theorem InSection.opens {kind : Section} {place : Place} (h : InSection kind.region place) :
    ∀ opener ∈ openers, place.Opens opener := by
  rcases h with rfl | ⟨hregion, htail⟩
  · cases kind <;> exact Place.opens_of_opensAll (by decide)
  · obtain ⟨region, tail, afterMetadata⟩ := place
    cases htail
    cases hregion
    cases kind <;> cases afterMetadata <;> exact Place.opens_of_opensAll (by decide)

theorem InSection.words {kind : Section} {place : Place} (h : InSection kind.region place) :
    OpensCommand place :=
  h.opensCommand (by cases kind <;> decide)

namespace Line

variable {kind : Section} {lines : List Line} {line : Line} {p p' place : Place} {c c' : Cursor}

/-- The lines end inside a section: with its heading, with one of its commands, or with metadata
below a command. -/
inductive EndsInSection (kind : Section) : List Line → Prop where
  | heading (lines : List Line) (position : Position) :
    EndsInSection kind (lines ++ [.sectionBegin position kind])
  | command (lines : List Line) (line : CommandLine) :
    EndsInSection kind (lines ++ [.command kind line])
  | metadata {lines : List Line} (h : EndsInSection kind lines) (line : MetadataLine) :
    EndsInSection kind (lines ++ [.directive (.metadata line)])

/-- The last line of a run is read where the lines before it end. -/
theorem Run.of_snoc (h : Run p c (lines ++ [line]) p' c') :
    ∃ p₁ c₁, Run p c lines p₁ c₁ ∧ read p₁ c₁ = .ok (some (line, p', c')) := by
  induction lines generalizing p c with
  | nil =>
    cases h with
    | cons hline hrest =>
      cases hrest
      exact ⟨p, c, .nil p c, hline⟩
  | cons first lines ih =>
    cases h with
    | cons hline hrest =>
      obtain ⟨p₁, c₁, hrun, hlast⟩ := ih hrest
      exact ⟨p₁, c₁, .cons hline hrun, hlast⟩

/-- Lines that end inside a section lead to a place in it. -/
theorem EndsInSection.inSection (h : EndsInSection kind lines) (hrun : Run p c lines p' c') :
    InSection kind.region p' := by
  induction h generalizing p' c' with
  | heading lines position =>
    obtain ⟨p₁, c₁, -, hlast⟩ := hrun.of_snoc
    cases step_of_read hlast
    exact .inl rfl
  | command lines line =>
    obtain ⟨p₁, c₁, -, hlast⟩ := hrun.of_snoc
    cases step_of_read hlast with
    | command hregion => exact .inr ⟨hregion, rfl⟩
  | metadata _ line ih =>
    obtain ⟨p₁, c₁, hbefore, hlast⟩ := hrun.of_snoc
    cases step_of_read hlast with
    | directive htakes =>
      -- Below the heading alone no directive is taken.
      rcases ih hbefore with rfl | hbelow
      · exact absurd rfl htakes
      · exact .inr hbelow

/-- Where a line of a section begins, a word before a blank is a token as a whole: a time tag or a
ground epoch if and only if it reads as a time tag, and otherwise an identifier. Before the end of
its line it is an identifier, whatever it reads as. -/
theorem Run.first_of_stem {text stem : List Char}
    (hrun : Run .start (Cursor.ofText text) lines place c) (hlines : EndsInSection kind lines)
    (hstem : isIdentifier stem = true) :
    (∀ blank rest, Terminal.isBlank blank = true → c.rest = stem ++ blank :: rest →
      ∃ token after, c.read place.levels = .ok (some (token, after)) ∧ token.text = stem ∧
        (token.kind ∈ openers ↔ readsAsTimeTag stem = true) ∧
        (token.kind ∉ openers → token.kind = .identifier)) ∧
    (∀ rest, c.rest = stem ++ ('\n' : Char) :: rest →
      ∃ token after, c.read place.levels = .ok (some (token, after)) ∧
        token.Is .identifier stem) := by
  have hsection := hlines.inSection hrun
  obtain ⟨hidentifier, hwords⟩ := InSection.words hsection
  have htags := InSection.opens hsection
  constructor
  · intro blank rest hblank hrest
    cases hreads : readsAsTimeTag stem with
    | true =>
      obtain ⟨opener, hopener, hlexes⟩ :=
        Lexes.tag_of_word (fun k hk => (htags k hk).1) hstem hreads hblank
      obtain ⟨token, after, hread, htoken, -⟩ :=
        Cursor.read_of_lexes (hrest ▸ hlexes) (htags opener hopener).2
      have hmem : token.kind ∈ openers := by rwa [htoken.kind]
      exact ⟨token, after, hread, htoken.text, iff_of_true hmem rfl,
        fun hnot => absurd hmem hnot⟩
    | false =>
      have hends : Terminal.endsWord (blank :: rest) = true := by
        simp only [Terminal.isBlank, Bool.or_eq_true, beq_iff_eq] at hblank
        rcases hblank with rfl | rfl <;> rfl
      have hlexes := Lexes.stem hidentifier.1 hstem hends hreads hwords
      obtain ⟨token, after, hread, htoken, -⟩ :=
        Cursor.read_of_lexes (hrest ▸ hlexes) hidentifier.2
      have hnot : token.kind ∉ openers := by
        rw [htoken.kind]
        decide
      exact ⟨token, after, hread, htoken.text, iff_of_false hnot Bool.false_ne_true,
        fun _ => htoken.kind⟩
  · intro rest hrest
    have hlexes : Lexes (Level.sought place.levels) (stem ++ ('\n' : Char) :: rest) .identifier stem
        ('\n' :: rest) := Lexes.identifier_of_newline hidentifier.1 hwords hstem
    obtain ⟨token, after, hread, htoken, -⟩ :=
      Cursor.read_of_lexes (hrest ▸ hlexes) hidentifier.2
    exact ⟨token, after, hread, htoken⟩

/-- What is asked of the line at a place is asked of one that is read. -/
theorem exists_read {check : Line × Place × Cursor → Bool}
    (h : (read p c).toOption.any (·.any check) = true) :
    ∃ line p' c', read p c = .ok (some (line, p', c')) ∧ check (line, p', c') = true := by
  obtain ⟨found, hread, h⟩ := succeeds_of_any h
  obtain ⟨⟨line, p', c'⟩, rfl, h⟩ := (Option.any_eq_true _ _).1 h
  exact ⟨line, p', c', hread, h⟩

/-- Whether a line is a command of a section. -/
def isCommandOf (kind : Section) : Line → Bool
  | .command k _ => k == kind
  | _ => false

theorem exists_command (h : line.isCommandOf kind = true) :
    ∃ given, line = .command kind given := by
  cases line with
  | command k given => exact ⟨given, by rw [beq_iff_eq.1 h]⟩
  | _ => cases h

theorem exists_metadata (h : line.directive?.any (·.kind == .metadata) = true) :
    ∃ entry, line = .directive (.metadata entry) := by
  cases line with
  | directive directive =>
    cases directive with
    | metadata entry => exact ⟨entry, rfl⟩
    | _ => cases h
  | _ => cases h

/-- Below the metadata of an immediate command, `R05T` before a tab is the time tag of a request. -/
theorem Run.first_of_stem_request :
    let rest := String.toList "R05T\tNOOP\n"
    let text := String.toList "@IMMEDIATE\nNOOP 1\n@METADATA \"k\" 2\n" ++ rest
    ∃ lines place c, Run .start (Cursor.ofText text) lines place c ∧
      EndsInSection .immediate lines ∧ c.rest = rest ∧
      ∃ token after, c.read place.levels = .ok (some (token, after)) ∧ token.kind ∈ openers := by
  intro rest text
  have hlines : (read .start (Cursor.ofText text)).toOption.any (·.any
      fun first => (read first.2.1 first.2.2).toOption.any (·.any
        fun second => second.1.isCommandOf .immediate &&
          (read second.2.1 second.2.2).toOption.any (·.any
            fun third => third.1.directive?.any (·.kind == .metadata) &&
              third.2.2.rest == rest))) = true := by
    decide +kernel
  obtain ⟨heading, p₁, c₁, hheading, h⟩ := exists_read hlines
  obtain ⟨_, p₂, c₂, hcommand, h⟩ := exists_read h
  obtain ⟨hsecond, h⟩ := Bool.and_eq_true_iff.1 h
  obtain ⟨_, p₃, c₃, hentry, h⟩ := exists_read h
  obtain ⟨hthird, hrest⟩ := Bool.and_eq_true_iff.1 h
  obtain ⟨command, rfl⟩ := exists_command hsecond
  obtain ⟨entry, rfl⟩ := exists_metadata hthird
  have hrun := Run.cons hheading (.cons hcommand (.cons hentry (.nil p₃ c₃)))
  have hsection : EndsInSection .immediate
      [heading, .command .immediate command, .directive (.metadata entry)] :=
    .metadata (.command [heading] command) entry
  have hrest : c₃.rest = rest := beq_iff_eq.1 hrest
  have hstem : isIdentifier (String.toList "R05T") = true := by decide
  obtain ⟨token, after, hread, -, hopener, -⟩ :=
    (Run.first_of_stem hrun hsection hstem).1 '\t' _ rfl hrest
  exact ⟨_, p₃, c₃, hrun, hsection, hrest, token, after, hread, hopener.2 (by decide)⟩

end Line

end CommandSequence.Source
