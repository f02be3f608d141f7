import CommandSequence.Proofs.Source.TrackingLines

/-!
# The beginning of a text

At its beginning a text may have blank lines and comments, which are lines of their own there. What
follows them is read from the next line with anything on it, as after an opening blank line
(`opening_cases`). So two texts that go on alike from that line have the same lines, but for blank
lines and comments and for the places of tokens (`readLines_of_continues`).
-/

namespace CommandSequence.Source

open Terminal (isBlank)

variable {text : List Char} {c : Cursor}

/-- The place after an opening blank line. -/
def Place.opened : Place := { region := .opened }

namespace Cursor

/-- Kinds of which the text has no token make no difference. -/
theorem firstCut?_congr {kinds kinds' : List Terminal}
    (h : ∀ kind found, kind.cut? text = some found → (kind ∈ kinds ↔ kind ∈ kinds')) :
    firstCut? kinds text = firstCut? kinds' text := by
  refine congrArg (fun f => Terminal.all.findSome? f) (funext fun kind => ?_)
  cases hcut : kind.cut? text with
  | none => simp
  | some found => simp [h kind found hcut]

theorem skipBlanks_skipBlanks (c : Cursor) : c.skipBlanks.skipBlanks = c.skipBlanks := by
  have hblanks (l : List Char) : (l.dropWhile isBlank).takeWhile isBlank = [] ∧
      (l.dropWhile isBlank).dropWhile isBlank = l.dropWhile isBlank := by
    induction l with
    | nil => exact ⟨rfl, rfl⟩
    | cons d l ih => by_cases hd : isBlank d = true <;> simp [hd, ih]
  unfold skipBlanks
  simp only [hblanks]
  rfl

/-- Blanks before a token make no difference to it. -/
theorem next_skipBlanks (c : Cursor) (kinds : List Terminal) :
    c.skipBlanks.next kinds = c.next kinds := by
  unfold next
  rw [skipBlanks_skipBlanks]

/-- A token that is found is taken. -/
theorem next_of_firstCut? {kinds : List Terminal} {cut : Terminal × List Char × List Char}
    (h : firstCut? kinds (c.rest.dropWhile isBlank) = some cut) :
    c.next kinds = .ok (some (⟨cut.1, cut.2.1, c.skipBlanks.position⟩,
      ⟨cut.2.2, c.skipBlanks.position.advance cut.2.1, c.skipBlanks.position, c.bound⟩)) := by
  obtain ⟨d, more, hd, -⟩ := Terminal.starts_of_cut? (of_firstCut? h).2.1
  have hfilled : (c.rest.dropWhile isBlank).isEmpty = false := by rw [hd]; rfl
  simp only [next, skipBlanks, hfilled, h]
  rfl

/-- Nothing is taken where a text goes on but nothing is found. -/
theorem next_ne_ok {kinds : List Terminal} (hfilled : (c.rest.dropWhile isBlank).isEmpty = false)
    (h : firstCut? kinds (c.rest.dropWhile isBlank) = none) (found : Option (Token × Cursor)) :
    c.next kinds ≠ .ok found := by
  simp [next, skipBlanks, hfilled, h]

/-- What is looked for matters only for what is found. -/
theorem next_congr {kinds kinds' : List Terminal}
    (h : firstCut? kinds (c.rest.dropWhile isBlank) = firstCut? kinds' (c.rest.dropWhile isBlank))
    {found : Option (Token × Cursor)} : c.next kinds = .ok found ↔ c.next kinds' = .ok found := by
  cases hfound : firstCut? kinds' (c.rest.dropWhile isBlank) with
  | some cut => rw [next_of_firstCut? (h.trans hfound), next_of_firstCut? hfound]
  | none =>
    cases hempty : (c.rest.dropWhile isBlank).isEmpty with
    | true =>
      have hend (kinds : List Terminal) : c.next kinds = .ok none := by
        simp only [next, skipBlanks, hempty, if_true]
      rw [hend, hend]
    | false =>
      exact iff_of_false (next_ne_ok hempty (h.trans hfound) found) (next_ne_ok hempty hfound found)

/-- At a single level, a token is taken if it is found. -/
theorem read_single {kinds : List Terminal} {found : Option (Token × Cursor)} :
    c.read [⟨kinds, []⟩] = .ok found ↔
      c.next kinds = .ok found ∧ (found = none → .endOfInput ∈ kinds) := by
  simp only [read, Level.sought]
  cases hnext : c.next kinds with
  | error e => simp [Bind.bind, Except.bind]
  | ok other =>
    simp only [Bind.bind, Except.bind, Except.ok.injEq]
    cases other with
    | none =>
      by_cases hend : .endOfInput ∈ kinds
      · simp only [refusing?_single hend]
        exact ⟨fun h => ⟨Except.ok.inj h, fun _ => hend⟩, fun h => congrArg _ h.1⟩
      · have hrefused : Level.refusing? [⟨kinds, []⟩] .endOfInput = some kinds := by
          simp [Level.refusing?, hend]
        simp only [hrefused]
        exact ⟨by rintro ⟨⟩, fun h => absurd (h.2 h.1.symm) hend⟩
    | some other =>
      obtain ⟨token, after⟩ := other
      simp only [refusing?_single (of_next hnext).mem]
      refine ⟨fun h => ⟨Except.ok.inj h, ?_⟩, fun h => congrArg _ h.1⟩
      rintro rfl
      cases h

/-- Where a text has neither a comment nor a line end in front, more kinds are looked for at its
beginning than after a blank line, but no other tokens are found. -/
theorem read_start (hdescription : Terminal.cutDescription? (c.rest.dropWhile isBlank) = none)
    (hnewline : Terminal.cutNewline? (c.rest.dropWhile isBlank) = none)
    (found : Option (Token × Cursor)) :
    c.read Place.start.levels = .ok found ↔ c.skipBlanks.read Place.opened.levels = .ok found := by
  have hfirst : firstCut? Region.start.admits (c.rest.dropWhile isBlank) =
      firstCut? Region.opened.admits (c.rest.dropWhile isBlank) := by
    refine firstCut?_congr fun kind found hcut => ?_
    have hkind : kind ≠ .description ∧ kind ≠ .newline := by
      constructor
      · rintro rfl; exact absurd (hdescription.symm.trans hcut) (by simp)
      · rintro rfl; exact absurd (hnewline.symm.trans hcut) (by simp)
    simp [Region.admits, hkind]
  show c.read [⟨Region.start.admits, []⟩] = _ ↔ c.skipBlanks.read [⟨Region.opened.admits, []⟩] = _
  rw [read_single, read_single, next_skipBlanks, next_congr hfirst]
  simp [Region.admits]

end Cursor

namespace Line

/-- A token that may begin a line after an opening blank line begins the same line at the beginning
of the text. -/
theorem readFrom_start {first : Token} (hkind : first.kind ∈ Region.opened.admits) (c : Cursor) :
    readFrom .start first c = readFrom .opened first c := by
  obtain ⟨kind, text, position⟩ := first
  replace hkind : kind ∈ Region.opened.admits := hkind
  cases kind
  all_goals first | rfl | exact absurd hkind (by decide)

/-- Where a text has neither a comment nor a line end in front, its first line is read as after an
opening blank line. -/
theorem read_start (hdescription : Terminal.cutDescription? (c.rest.dropWhile isBlank) = none)
    (hnewline : Terminal.cutNewline? (c.rest.dropWhile isBlank) = none)
    (found : Option (Line × Place × Cursor)) :
    read .start c = .ok found ↔ read .opened c.skipBlanks = .ok found := by
  unfold read
  rw [bind_eq_ok, bind_eq_ok]
  refine exists_congr fun first => ?_
  rw [Cursor.read_start hdescription hnewline]
  refine and_congr_right fun hread => ?_
  cases first with
  | none => rfl
  | some first =>
    have hmem : first.1.kind ∈ Region.opened.admits := (Cursor.of_read hread).1.mem
    simp only [readFrom_start hmem]

end Line

/-! ## What stands first -/

/-- A line end in front of a text is found. -/
theorem firstCut?_break {kinds : List Terminal} (hkinds : .newline ∈ kinds) {ending : List Char}
    (hending : IsBreak ending) (rest : List Char) :
    ∃ lexeme, Cursor.firstCut? kinds (ending ++ rest) =
      some (.newline, lexeme, nextLine (ending ++ rest)) := by
  have hstarts : ∀ k ∈ Terminal.rivals .newline, k.starts '\n' = false ∧ k.starts '\r' = false := by
    decide
  refine ⟨_, Cursor.firstCut?_eq hkinds (Respaced.cutNewline?_break hending rest) fun k hk _ => ?_⟩
  rcases hending with rfl | rfl
  · exact Terminal.cut?_eq_none_of_starts (hstarts k hk).1
  · exact Terminal.cut?_eq_none_of_starts (hstarts k hk).2

/-- Nothing is found before a carriage return that belongs to no line end. -/
theorem firstCut?_return (kinds : List Terminal) {rest : List Char}
    (h : rest.head? ≠ some ('\n' : Char)) : Cursor.firstCut? kinds ('\r' :: rest) = none := by
  refine List.findSome?_eq_none_iff.2 fun kind _ => ?_
  have hnone : kind.cut? ('\r' :: rest) = none := by
    by_cases hkind : kind = .newline
    · subst hkind
      exact Respaced.cutNewline?_eq_none (by decide) fun _ => h
    · refine Terminal.cut?_eq_none_of_starts ?_
      cases kind
      all_goals first | exact absurd rfl hkind | decide
  simp [hnone]

/-- A comment in front of a text is found. -/
theorem firstCut?_description {kinds : List Terminal} (hkinds : .description ∈ kinds)
    (rest : List Char) : Cursor.firstCut? kinds ('#' :: rest) =
      some (.description, ('#' : Char) :: rest.takeWhile Terminal.inComment,
        rest.dropWhile Terminal.inComment) := by
  have hstarts : ∀ k ∈ Terminal.rivals .description, k.starts '#' = false := by decide
  exact Cursor.firstCut?_eq hkinds rfl fun k hk _ =>
    Terminal.cut?_eq_none_of_starts (hstarts k hk)

/-- What stands at the beginning of a line: a line end, a comment or something else. -/
theorem front_cases (text : List Char) :
    (∃ ending rest, IsBreak ending ∧ text.dropWhile isBlank = ending ++ rest) ∨
    (∃ rest, text.dropWhile isBlank = ('#' : Char) :: rest) ∨
    Terminal.cutDescription? (text.dropWhile isBlank) = none ∧
      Terminal.cutNewline? (text.dropWhile isBlank) = none := by
  rcases text.dropWhile isBlank with - | ⟨c, rest⟩
  · exact .inr (.inr ⟨rfl, rfl⟩)
  · by_cases hfeed : c = '\n'
    · subst hfeed
      exact .inl ⟨['\n'], rest, .inl rfl, rfl⟩
    by_cases hmark : c = '#'
    · subst hmark
      exact .inr (.inl ⟨rest, rfl⟩)
    by_cases hreturn : c = '\r' ∧ rest.head? = some ('\n' : Char)
    · obtain ⟨rfl, hhead⟩ := hreturn
      obtain ⟨more, rfl⟩ := List.head?_eq_some_iff.1 hhead
      exact .inl ⟨['\r', '\n'], more, .inr rfl, rfl⟩
    · have hdescription : Terminal.cut? .description (c :: rest) = none :=
        Terminal.cut?_eq_none_of_starts (by simpa [Terminal.starts] using hmark)
      exact .inr (.inr ⟨hdescription,
        Respaced.cutNewline?_eq_none hfeed fun hc hhead => hreturn ⟨hc, hhead⟩⟩)

theorem nextLine_dropWhile (text : List Char) :
    nextLine (text.dropWhile isBlank) = nextLine text := by
  have hblanks : ∀ c ∈ text.takeWhile isBlank, isBlank c = true :=
    fun _ h => List.mem_takeWhile_imp h
  conv_rhs => rw [← List.takeWhile_append_dropWhile (p := isBlank) (l := text)]
  exact (nextLine_blanks hblanks _).symm

/-- A line with something on it other than a comment is the next line. -/
theorem nextLine_of_front (hdescription : Terminal.cutDescription? (text.dropWhile isBlank) = none)
    (hnewline : Terminal.cutNewline? (text.dropWhile isBlank) = none) :
    nextLine text = text.dropWhile isBlank := by
  have hhead := List.head?_dropWhile_not isBlank text
  rw [← nextLine_dropWhile]
  rcases hfront : text.dropWhile isBlank with - | ⟨c, rest⟩
  · rfl
  · rw [hfront] at hdescription hnewline hhead
    have hblank : isBlank c = false := by simpa using hhead
    have hfeed : c ≠ '\n' := by
      rintro rfl
      cases hnewline
    have hmark : c ≠ '#' := by
      rintro rfl
      cases hdescription
    have hreturn : c = '\r' → rest.head? ≠ some ('\n' : Char) := by
      rintro rfl hmore
      obtain ⟨more, rfl⟩ := List.head?_eq_some_iff.1 hmore
      cases hnewline
    have hends := cutLineEnds_cons hfeed hreturn false
    exact hends.trans (by simp [hblank, hmark])

/-! ## The opening lines -/

namespace Line

theorem readNewline_break {ending rest : List Char} (hending : IsBreak ending)
    (hc : c.rest = ending ++ rest) : ∃ after, readNewline c = .ok after ∧
      after.rest = nextLine c.rest ∧ after.rest.length < c.rest.length ∧ after.bound = c.bound := by
  have hfront : c.rest.dropWhile isBlank = c.rest := by
    rw [hc]
    rcases hending with rfl | rfl <;> rfl
  obtain ⟨lexeme, hfound⟩ := firstCut?_break (List.mem_singleton.2 rfl) hending rest
  rw [← hc] at hfound
  rw [← hfront] at hfound
  have hread : c.read [⟨[.newline], []⟩] = .ok (some _) :=
    Cursor.read_single.2 ⟨Cursor.next_of_firstCut? hfound, nofun⟩
  rw [hfront] at hfound
  have hless := Terminal.length_lt_of_cut? (Cursor.of_firstCut? hfound).2.1
  refine ⟨⟨nextLine (c.rest.dropWhile isBlank), c.skipBlanks.position.advance lexeme,
    c.skipBlanks.position, c.bound⟩, ?_, congrArg nextLine hfront, ?_, rfl⟩
  rotate_left
  · rw [hfront]
    exact hless
  simp only [readNewline, Cursor.expect, Cursor.take, hread]
  rfl

/-- No line end is read before a carriage return that belongs to none. -/
theorem readNewline_return {rest : List Char} (hc : c.rest = ('\r' : Char) :: rest)
    (hrest : rest.head? ≠ some ('\n' : Char)) (after : Cursor) : readNewline c ≠ .ok after := by
  intro h
  obtain ⟨_, htake, -⟩ := bind_eq_ok.1 h
  obtain ⟨found, hread, -⟩ := bind_eq_ok.1 htake
  have hfront : c.rest.dropWhile isBlank = ('\r' : Char) :: rest := by rw [hc]; rfl
  exact Cursor.next_ne_ok (by rw [hfront]; rfl)
    (by rw [hfront]; exact firstCut?_return _ hrest) found (Cursor.read_single.1 hread).1

/-- A comment at the beginning of a text is a line of its own. -/
theorem read_comment {rest : List Char} (hfront : c.rest.dropWhile isBlank = ('#' : Char) :: rest) :
    ∃ token after, after.rest = rest.dropWhile Terminal.inComment ∧ after.bound = c.bound ∧
      read .start c =
        readNewline after >>= fun after => .ok (some (.comment token, .opened, after)) := by
  have hmem : .description ∈ Region.start.admits := by decide
  have hfound := firstCut?_description hmem rest
  rw [← hfront] at hfound
  have hread : c.read Place.start.levels = .ok (some _) :=
    Cursor.read_single.2 ⟨Cursor.next_of_firstCut? hfound, nofun⟩
  let after : Cursor := ⟨rest.dropWhile Terminal.inComment,
    c.skipBlanks.position.advance ('#' :: rest.takeWhile Terminal.inComment),
    c.skipBlanks.position, c.bound⟩
  refine ⟨⟨.description, '#' :: rest.takeWhile Terminal.inComment, c.skipBlanks.position⟩, after,
    rfl, rfl, ?_⟩
  rw [read, hread]
  show (do return some (← readFrom .start _ after)) = _
  simp only [readFrom]
  cases readNewline after <;> rfl

/-- The first line says nothing, and the text goes on from its next line. -/
def OpensIdle (c : Cursor) : Prop :=
  ∃ line after, line.isIdle = true ∧ read .start c = .ok (some (line, .opened, after)) ∧
    after.rest = nextLine c.rest ∧ after.rest.length < c.rest.length ∧ after.bound = c.bound

/-- The first line cannot be read, for a carriage return that belongs to no line end. -/
def OpensStray (c : Cursor) : Prop :=
  (∀ found, read .start c ≠ .ok found) ∧
    ∃ more, nextLine c.rest = ('\r' : Char) :: more ∧ more.head? ≠ some ('\n' : Char)

theorem opensIdle_break {ending rest : List Char} (hending : IsBreak ending)
    (hfront : c.rest.dropWhile isBlank = ending ++ rest) : OpensIdle c := by
  have hlength := (List.dropWhile_sublist isBlank (l := c.rest)).length_le
  have hmem : .newline ∈ Region.start.admits := by decide
  obtain ⟨lexeme, hfound⟩ := firstCut?_break hmem hending rest
  rw [← hfront] at hfound
  have hread : c.read Place.start.levels = .ok (some _) :=
    Cursor.read_single.2 ⟨Cursor.next_of_firstCut? hfound, nofun⟩
  have hless := Terminal.length_lt_of_cut? (Cursor.of_firstCut? hfound).2.1
  exact ⟨.blank, _, rfl, bind_eq_ok.2 ⟨_, hread, rfl⟩, nextLine_dropWhile c.rest,
    Nat.lt_of_lt_of_le hless hlength, rfl⟩

/-- A comment ends at a line end or at a stray carriage return, unless the text ends within it. -/
theorem comment_cases {rest : List Char} (hrest : ('\n' : Char) ∈ rest) :
    (∃ ending more, IsBreak ending ∧ rest.dropWhile Terminal.inComment = ending ++ more) ∨
      ∃ more, rest.dropWhile Terminal.inComment = ('\r' : Char) :: more ∧
      more.head? ≠ some ('\n' : Char) := by
  rcases hleft : rest.dropWhile Terminal.inComment with - | ⟨d, more⟩
  · exact absurd (List.dropWhile_eq_nil_iff.1 hleft '\n' hrest) (by decide)
  · have hhead := List.head?_dropWhile_not Terminal.inComment rest
    rw [hleft] at hhead
    have hd : d = '\n' ∨ d = '\r' := by
      simpa [Terminal.inComment, Classical.or_iff_not_imp_left] using hhead
    rcases hd with rfl | rfl
    · exact .inl ⟨['\n'], more, .inl rfl, rfl⟩
    · by_cases hmore : more.head? = some ('\n' : Char)
      · obtain ⟨more, rfl⟩ := List.head?_eq_some_iff.1 hmore
        exact .inl ⟨['\r', '\n'], more, .inr rfl, rfl⟩
      · exact .inr ⟨more, rfl, hmore⟩

theorem nextLine_comment {rest : List Char}
    (hfront : c.rest.dropWhile isBlank = ('#' : Char) :: rest) :
    nextLine c.rest = (Terminal.cutLineEnds true (rest.dropWhile Terminal.inComment)).2 := by
  rw [← nextLine_dropWhile, hfront, ← cutLineEnds_comment]
  rfl

theorem opensIdle_comment {rest ending more : List Char}
    (hfront : c.rest.dropWhile isBlank = ('#' : Char) :: rest) (hending : IsBreak ending)
    (hleft : rest.dropWhile Terminal.inComment = ending ++ more) : OpensIdle c := by
  obtain ⟨token, after, hafter, hbound, hread⟩ := read_comment hfront
  obtain ⟨last, hnewline, hlast, hless, hlastBound⟩ :=
    readNewline_break hending (hafter.trans hleft)
  have hlength := (List.dropWhile_sublist isBlank (l := c.rest)).length_le
  have hcomment := (List.dropWhile_sublist Terminal.inComment (l := rest)).length_le
  rw [hfront, List.length_cons] at hlength
  refine ⟨.comment token, last, rfl, by rw [hread, hnewline]; rfl, ?_, ?_, hlastBound.trans hbound⟩
  · rw [hlast, nextLine_comment hfront, hafter, hleft, cutLineEnds_break hending,
      nextLine_break hending]
  · rw [hafter] at hless
    omega

theorem opensStray_comment {rest more : List Char}
    (hfront : c.rest.dropWhile isBlank = ('#' : Char) :: rest)
    (hleft : rest.dropWhile Terminal.inComment = ('\r' : Char) :: more)
    (hmore : more.head? ≠ some ('\n' : Char)) : OpensStray c := by
  obtain ⟨token, after, hafter, -, hread⟩ := read_comment hfront
  refine ⟨fun found hfound => ?_, more, ?_, hmore⟩
  · rw [hread] at hfound
    obtain ⟨last, hlast, -⟩ := bind_eq_ok.1 hfound
    exact readNewline_return (hafter.trans hleft) hmore last hlast
  · rw [nextLine_comment hfront, hleft, cutLineEnds_cons (by decide) fun _ => hmore]
    rfl

/-- The first line of a text says nothing and leads to the next line, or is itself the next line, or
is a comment that does not end, and then neither it nor what follows can be read. -/
theorem read_opening (hc : ('\n' : Char) ∈ c.rest) :
    OpensIdle c ∨
    (nextLine c.rest = c.skipBlanks.rest ∧
      ∀ found, read .start c = .ok found ↔ read .opened c.skipBlanks = .ok found) ∨
    OpensStray c := by
  rcases front_cases c.rest with ⟨ending, rest, hending, hfront⟩ | ⟨rest, hfront⟩ |
    ⟨hdescription, hnewline⟩
  · exact .inl (opensIdle_break hending hfront)
  · have hmem : ('\n' : Char) ∈ c.rest.dropWhile isBlank := by
      rw [← List.takeWhile_append_dropWhile (p := isBlank) (l := c.rest), List.mem_append] at hc
      exact hc.resolve_left fun h => absurd (List.mem_takeWhile_imp h) (by decide)
    rw [hfront] at hmem
    rcases comment_cases (List.mem_of_ne_of_mem (by decide) hmem) with
      ⟨ending, more, hending, hleft⟩ | ⟨more, hleft, hmore⟩
    · exact .inl (opensIdle_comment hfront hending hleft)
    · exact .inr (.inr (opensStray_comment hfront hleft hmore))
  · exact .inr (.inl ⟨nextLine_of_front hdescription hnewline, read_start hdescription hnewline⟩)

end Line

/-- From its beginning a text is read as from its next line after an opening blank line. -/
theorem exists_opened {lines : List Line} (htext : ('\n' : Char) ∈ text)
    (h : readLines text = .ok lines) : ∃ fuel c more, c.rest = nextLine text ∧
      Line.readAll fuel .opened c = .ok more ∧ substance more = substance lines := by
  obtain ⟨found, hread, h⟩ := bind_eq_ok.1 h
  rcases Line.read_opening (c := Cursor.ofText text) htext with
    ⟨line, after, hidle, hline, hafter, -⟩ | ⟨hnext, hsame⟩ | ⟨hnone, -⟩
  · cases hread.symm.trans hline
    obtain ⟨more, hmore, heq⟩ := bind_eq_ok.1 h
    cases heq
    exact ⟨_, after, more, hafter, hmore, (substance_cons hidle more).symm⟩
  · refine ⟨text.length + 1, (Cursor.ofText text).skipBlanks, lines, hnext.symm, ?_, rfl⟩
    exact bind_eq_ok.2 ⟨found, (hsame found).1 hread, h⟩
  · exact absurd hread (hnone found)

/-- What is read from the next line after an opening blank line is read from the beginning. -/
theorem follows_opened {fuel : Nat} (htext : ('\n' : Char) ∈ text)
    (h : Continues [] c.rest (nextLine text)) :
    Follows (InvImage Eq substance) (Line.readAll fuel .opened c) (readLines text) := by
  intro lines hlines
  rcases Line.read_opening (c := Cursor.ofText text) htext with
    ⟨line, after, hidle, hline, hafter, hless, hbound⟩ | ⟨hnext, hsame⟩ | ⟨-, more, hnext, hmore⟩
  · have htracks : Cursor.Tracks [] c after := ⟨hafter.symm ▸ h, hbound ▸ hless.le⟩
    obtain ⟨lines', hlines', heq⟩ := htracks.readAll .opened hless lines hlines
    refine ⟨line :: lines', bind_eq_ok.2 ⟨_, hline, bind_eq_ok.2 ⟨lines', hlines', rfl⟩⟩, ?_⟩
    exact (congrArg (List.filter _) heq).trans (substance_cons hidle lines').symm
  · have hlength := (List.dropWhile_sublist isBlank (l := text)).length_le
    have htracks : Cursor.Tracks [] c (Cursor.ofText text).skipBlanks := ⟨hnext ▸ h, hlength⟩
    obtain ⟨lines', hlines', heq⟩ :=
      htracks.readAll .opened (Nat.lt_succ_of_le hlength) lines hlines
    obtain ⟨found, hread, hmore⟩ := bind_eq_ok.1 hlines'
    exact ⟨lines', bind_eq_ok.2 ⟨found, (hsame found).2 hread, hmore⟩, congrArg (List.filter _) heq⟩
  · let c' : Cursor := ⟨'\r' :: more, .origin, .origin, more.length + 1⟩
    have htracks : Cursor.Tracks [] c c' := ⟨hnext.subst h, Nat.le_refl _⟩
    obtain ⟨lines', hlines', -⟩ := htracks.readAll .opened (Nat.lt_succ_self _) lines hlines
    obtain ⟨_, hread, -⟩ := bind_eq_ok.1 hlines'
    obtain ⟨found, hread, -⟩ := bind_eq_ok.1 hread
    have hfound := firstCut?_return Region.opened.admits hmore
    exact absurd (Cursor.read_single.1 hread).1 (Cursor.next_ne_ok rfl hfound found)

/-- Texts that go on alike from their next lines say the same. -/
theorem readLines_of_continues {text' : List Char} (htext : ('\n' : Char) ∈ text)
    (htext' : ('\n' : Char) ∈ text')
    (h : Continues [] (nextLine text) (nextLine text')) :
    Follows (InvImage Eq substance) (readLines text) (readLines text') := by
  intro lines hlines
  obtain ⟨fuel, c, more, hrest, hmore, hsame⟩ := exists_opened htext hlines
  exact (follows_opened htext' (hrest ▸ h) more hmore).mono fun _ h => hsame.symm.trans h

end CommandSequence.Source
