import CommandSequence.Proofs.Source.Tracking

/-!
# Reading the lines of respaced texts

At cursors of which the second tracks the first, a line that is read at the first is read at the
second too, apart from its places, and leads to the same place (`Cursor.Tracks.readLine`). There is
one lemma for each reader of a piece of a line.
-/

namespace CommandSequence.Source.Cursor.Tracks

open Line (endings argumentLevel itemLevel afterArgument)

variable {tail : List Char} {levels : List Level} {kinds : List Terminal} {c c' : Cursor}

/-! ## Arguments and descriptions -/

theorem readGroup {fuel fuel' : Nat} (h : Tracks tail c c')
    (hlevels : Level.refusing? levels .newline ≠ none) (hfuel : c'.rest.length < fuel') :
    Follows (Onward tail c'.rest.length (InvImage Eq (List.map Token.unplaced)))
      (Line.readGroup levels fuel c) (Line.readGroup levels fuel' c') := by
  induction fuel generalizing levels c c' fuel' with
  | zero => exact .error
  | succ fuel ih =>
    obtain ⟨fuel', rfl⟩ : ∃ k, fuel' = k + 1 := ⟨fuel' - 1, by omega⟩
    refine Onward.bind (h.takeInline hlevels) fun token token' c₁ c₁' htoken h₁ hless => ?_
    dsimp only
    rw [← kind_eq htoken]
    split
    · exact .ok ⟨rfl, h₁, hless⟩
    · refine Onward.bind (ih h₁ (by decide) (by omega))
        fun items items' c₂ c₂' hitems h₂ hless₂ => ?_
      exact .ok ⟨congrArg₂ List.cons htoken hitems, h₂, Nat.lt_trans hless₂ hless⟩

/-- The arguments agree apart from their places, and so do the tokens that end them. -/
theorem readArguments {fuel fuel' : Nat} (h : Tracks tail c c') (hfuel : c'.rest.length < fuel') :
    Follows (fun found found' => InvImage Eq (List.map Argument.unplaced) found.1 found'.1 ∧
        Onward tail c'.rest.length Token.Echoes found.2 found'.2)
      (Line.readArguments levels fuel c) (Line.readArguments levels fuel' c') := by
  induction fuel generalizing levels c c' fuel' with
  | zero => exact .error
  | succ fuel ih =>
    obtain ⟨fuel', rfl⟩ : ∃ k, fuel' = k + 1 := ⟨fuel' - 1, by omega⟩
    refine Onward.bind (h.take levels) fun token token' c₁ c₁' ⟨hechoes, _⟩ h₁ hless => ?_
    dsimp only
    rw [← hechoes.kind]
    split
    · exact .ok ⟨rfl, hechoes, h₁, hless⟩
    · next hending =>
      split
      · refine Onward.bind (h₁.readGroup (by decide) (Nat.lt_trans hless hfuel))
          fun items items' c₂ c₂' hitems h₂ hless₂ => ?_
        refine (ih h₂ (by omega)).bind fun rest rest' ⟨harguments, hrest⟩ => ?_
        exact .ok ⟨congrArg₂ List.cons (congrArg (Argument.group .origin) hitems) harguments,
          hrest.mono (by omega) id⟩
      · have htoken : token.unplaced = token'.unplaced :=
          hechoes.unplaced fun hkind => hending (by rw [hkind]; rfl)
        refine (ih h₁ (by omega)).bind fun rest rest' ⟨harguments, hrest⟩ => ?_
        exact .ok ⟨congrArg₂ List.cons (congrArg Argument.single htoken) harguments,
          hrest.mono (by omega) id⟩

theorem readNewline (h : Tracks tail c c') :
    Follows (fun c₁ c₁' => Tracks tail c₁ c₁' ∧ c₁'.rest.length < c'.rest.length)
      (Line.readNewline c) (Line.readNewline c') :=
  Onward.bind (h.expect _) fun _ _ _ _ _ h₁ hless => .ok ⟨h₁, hless⟩

theorem readEnding {ending ending' : Token} (hending : ending.Echoes ending')
    (h : Tracks tail c c') :
    Follows (Onward tail (c'.rest.length + 1) (InvImage Eq (Option.map Token.unplaced)))
      (Line.readEnding ending c) (Line.readEnding ending' c') := by
  unfold Line.readEnding
  rw [← hending.kind]
  split
  · next hkind =>
    have hunplaced := hending.unplaced (by rw [beq_iff_eq.1 hkind]; decide)
    refine Onward.bind (h.expect _) fun _ _ c₁ c₁' _ h₁ hless => ?_
    exact .ok ⟨congrArg some hunplaced, h₁, Nat.lt_succ_of_lt hless⟩
  · exact .ok ⟨rfl, h, Nat.lt_succ_self _⟩

theorem readTrailer (h : Tracks tail c c') :
    Follows (fun found found' => InvImage Eq (List.map Argument.unplaced) found.1 found'.1 ∧
        Onward tail c'.rest.length (InvImage Eq (Option.map Token.unplaced)) found.2 found'.2)
      (Line.readTrailer c) (Line.readTrailer c') := by
  refine (h.readArguments (Nat.lt_succ_of_le h.bound)).bind fun rest rest' ⟨harguments, hrest⟩ => ?_
  refine (hrest.tracks.readEnding hrest.result).bind fun found found' hfound => ?_
  exact .ok ⟨harguments, hfound.mono hrest.shorter id⟩

theorem readDescription (h : Tracks tail c c') :
    Follows (Onward tail c'.rest.length (InvImage Eq (Option.map Token.unplaced)))
      (Line.readDescription c) (Line.readDescription c') := by
  refine Onward.bind (h.expect _) fun ending ending' c₁ c₁' hending h₁ hless => ?_
  exact (h₁.readEnding hending).mono fun _ _ hfound => hfound.mono hless id

/-! ## Strings and declarations -/

theorem readStringLine (h : Tracks tail c c') :
    Follows (Onward tail c'.rest.length (InvImage Eq Token.unplaced))
      (Line.readStringLine c) (Line.readStringLine c') := by
  refine Onward.bind (h.expectInline (by decide)) fun token token' c₁ c₁' htoken h₁ hless => ?_
  refine h₁.readNewline.bind fun c₂ c₂' ⟨h₂, hless₂⟩ => ?_
  exact .ok ⟨htoken, h₂, Nat.lt_trans hless₂ hless⟩

theorem readParenthesized (h : Tracks tail c c') :
    Follows (Onward tail c'.rest.length (InvImage Eq Token.unplaced))
      (Line.readParenthesized c) (Line.readParenthesized c') := by
  refine Onward.bind (h.expectInline (by decide)) fun _ _ c₁ c₁' _ h₁ hless₁ => ?_
  refine Onward.bind (h₁.expectInline (by decide)) fun token token' c₂ c₂' htoken h₂ hless₂ => ?_
  refine Onward.bind (h₂.expectInline (by decide)) fun _ _ c₃ c₃' _ h₃ hless₃ => ?_
  exact .ok ⟨htoken, h₃, by dsimp only; omega⟩

theorem readStrings (strings : Nat) (h : Tracks tail c c') :
    Follows (Onward tail c'.rest.length (InvImage Eq (List.map Token.unplaced)))
      (Line.readDeclaration 0 strings c) (Line.readDeclaration 0 strings c') := by
  induction strings generalizing c c' with
  | zero =>
    rw [Line.readDeclaration, Line.readDeclaration]
    refine h.readNewline.bind ?_
    rintro c₁ c₁' ⟨h₁, hless⟩
    exact .ok ⟨rfl, h₁, hless⟩
  | succ strings ih =>
    rw [Line.readDeclaration, Line.readDeclaration]
    refine Onward.bind (h.expect _) fun token token' c₁ c₁' hechoes h₁ hless => ?_
    dsimp only
    rw [← hechoes.kind]
    split
    · exact .ok ⟨rfl, h₁, hless⟩
    · next hkind =>
      have htoken := hechoes.unplaced (by simpa using hkind)
      refine Onward.bind (ih h₁) fun tokens tokens' c₂ c₂' htokens h₂ hless₂ => ?_
      exact .ok ⟨congrArg₂ List.cons htoken htokens, h₂, Nat.lt_trans hless₂ hless⟩

theorem readDeclaration (words strings : Nat) (h : Tracks tail c c') :
    Follows (Onward tail c'.rest.length (InvImage Eq (List.map Token.unplaced)))
      (Line.readDeclaration words strings c) (Line.readDeclaration words strings c') := by
  induction words generalizing c c' with
  | zero => exact h.readStrings strings
  | succ words ih =>
    rw [Line.readDeclaration, Line.readDeclaration]
    refine Onward.bind (h.expect _) fun token token' c₁ c₁' hechoes h₁ hless => ?_
    dsimp only
    rw [← hechoes.kind]
    split
    · exact .ok ⟨rfl, h₁, hless⟩
    · next hkind =>
      have htoken := hechoes.unplaced (by simpa using hkind)
      have hmore : ∀ {r r' : Except SyntaxError (List Token × Cursor)},
          Follows (Onward tail c₁'.rest.length (InvImage Eq (List.map Token.unplaced))) r r' →
          Follows (Onward tail c'.rest.length (InvImage Eq (List.map Token.unplaced)))
            (r >>= fun found => .ok (token :: found.1, found.2))
            (r' >>= fun found => .ok (token' :: found.1, found.2)) := fun hread =>
        Onward.bind hread fun tokens tokens' c₂ c₂' htokens h₂ hless₂ =>
          .ok ⟨congrArg₂ List.cons htoken htokens, h₂, Nat.lt_trans hless₂ hless⟩
      split
      · exact hmore (ih h₁)
      · exact hmore (h₁.readStrings _)

/-! ## Directives -/

theorem readMetadata (position position' : Position) (h : Tracks tail c c') :
    Follows (Onward tail c'.rest.length (InvImage Eq MetadataLine.unplaced))
      (Line.readMetadata position c) (Line.readMetadata position' c') := by
  refine Onward.bind (h.expectInline (by decide)) fun key key' c₁ c₁' hkey h₁ hless₁ => ?_
  refine Onward.bind h₁.readValue fun value value' c₂ c₂' hvalue h₂ hless₂ => ?_
  refine Onward.bind (h₂.take _) fun _ _ c₃ c₃' _ h₃ hless₃ => ?_
  exact .ok ⟨congrArg₂ (MetadataLine.mk .origin) hkey hvalue, h₃, by dsimp only; omega⟩

theorem readModel (position position' : Position) (h : Tracks tail c c') :
    Follows (Onward tail c'.rest.length (InvImage Eq ModelLine.unplaced))
      (Line.readModel position c) (Line.readModel position' c') := by
  refine Onward.bind (h.expectInline (by decide)) fun name name' c₁ c₁' hname h₁ hless₁ => ?_
  refine Onward.bind (h₁.expectInline (by decide)) fun value value' c₂ c₂' hvalue h₂ hless₂ => ?_
  refine Onward.bind h₂.readStringLine fun offset offset' c₃ c₃' hoffset h₃ hless₃ => ?_
  refine .ok ⟨?_, h₃, by dsimp only; omega⟩
  unfold InvImage at hname hvalue hoffset
  simp only [InvImage, ModelLine.unplaced, hname, hvalue, hoffset]

/-! ## Steps and requests -/

theorem readStep {tag tag' opener opener' : Token} (kind : StepKind)
    (htag : tag.unplaced = tag'.unplaced) (hopener : opener.unplaced = opener'.unplaced)
    (h : Tracks tail c c') :
    Follows (Onward tail c'.rest.length (InvImage Eq StepLine.unplaced))
      (Line.readStep tag kind opener c) (Line.readStep tag' kind opener' c') := by
  have hrest (subject subject' : Token) (c c' : Cursor)
      (hsubject : InvImage Eq Token.unplaced subject subject')
      (h : Tracks tail c c') : Follows (Onward tail c'.rest.length (InvImage Eq StepLine.unplaced))
      (Line.readTrailer c >>= fun rest =>
        .ok (⟨tag, kind, opener.position, subject, rest.1, rest.2.1⟩, rest.2.2))
      (Line.readTrailer c' >>= fun rest =>
        .ok (⟨tag', kind, opener'.position, subject', rest.1, rest.2.1⟩, rest.2.2)) := by
    refine h.readTrailer.bind ?_
    rintro rest rest' ⟨harguments, hrest⟩
    refine .ok ⟨?_, hrest.tracks, hrest.shorter⟩
    have hdescription := hrest.result
    unfold InvImage at hsubject harguments hdescription
    simp only [InvImage, StepLine.unplaced, htag, hsubject, harguments, hdescription]
  unfold Line.readStep
  split
  · exact hrest opener opener' c c' hopener h
  · refine Onward.bind h.readParenthesized fun subject subject' c₁ c₁' hsubject h₁ hless₁ => ?_
    exact (hrest subject subject' c₁ c₁' hsubject h₁).mono fun _ _ h₂ => h₂.mono hless₁.le id

theorem readRequest {timing timing' : Timing} (htiming : timing.unplaced = timing'.unplaced)
    (h : Tracks tail c c') :
    Follows (Onward tail c'.rest.length (InvImage Eq RequestLine.unplaced))
      (Line.readRequest timing c) (Line.readRequest timing' c') := by
  refine Onward.bind h.readParenthesized fun name name' c₁ c₁' hname h₁ hless₁ => ?_
  refine Onward.bind h₁.readDescription
    fun description description' c₂ c₂' hdescription h₂ hless₂ => ?_
  refine .ok ⟨?_, h₂, Nat.lt_trans hless₂ hless₁⟩
  unfold InvImage at hname hdescription
  simp only [InvImage, RequestLine.unplaced, htiming, hname, hdescription]

/-! ## Whole lines -/

/-- The lines agree apart from their places, and lead to the same place; the second cursor still
tracks the first. -/
def SameLine (tail : List Char) (n : Nat) (found found' : Line × Place × Cursor) : Prop :=
  InvImage Eq Line.unplaced found.1 found'.1 ∧ Onward tail n Eq found.2 found'.2

theorem readTimed {region : Region} {tag tag' : Token} (htag : tag.unplaced = tag'.unplaced)
    (h : Tracks tail c c') :
    Follows (SameLine tail c'.rest.length) (Line.readTimed region tag c)
      (Line.readTimed region tag' c') := by
  have hinline : Level.refusing? (Line.afterTag region) .newline ≠ none := by
    cases region with
    | declarations block => cases block <;> decide
    | request late => cases late <;> decide
    | _ => decide
  refine Onward.bind (h.takeInline hinline) fun opener opener' c₁ c₁' hopener h₁ hless₁ => ?_
  dsimp only
  rw [← kind_eq hopener]
  split
  · next kind hkind =>
    refine Onward.bind (h₁.readStep kind htag hopener) fun line line' c₂ c₂' hline h₂ hless₂ => ?_
    exact .ok ⟨congrArg Line.step hline, rfl, h₂, Nat.lt_trans hless₂ hless₁⟩
  · have htiming : (Timing.tag tag).unplaced = (Timing.tag tag').unplaced :=
      congrArg Timing.tag htag
    refine Onward.bind (h₁.readRequest htiming) fun line line' c₂ c₂' hline h₂ hless₂ => ?_
    exact .ok ⟨congrArg Line.requestBegin hline, rfl, h₂, Nat.lt_trans hless₂ hless₁⟩

theorem readNamed {region : Region} {name name' : Token} (hname : name.unplaced = name'.unplaced)
    (h : Tracks tail c c') :
    Follows (SameLine tail c'.rest.length) (Line.readNamed region name c)
      (Line.readNamed region name' c') := by
  unfold Line.readNamed
  split
  · refine h.readTrailer.bind fun rest rest' ⟨harguments, hrest⟩ => ?_
    refine .ok ⟨?_, rfl, hrest.tracks, hrest.shorter⟩
    have hdescription := hrest.result
    unfold InvImage at harguments hdescription
    simp only [InvImage, Line.unplaced, CommandLine.unplaced, hname, harguments, hdescription]
  · refine Onward.bind h.readDescription
      fun description description' c₁ c₁' hdescription h₁ hless₁ => ?_
    refine .ok ⟨?_, rfl, h₁, hless₁⟩
    unfold InvImage at hdescription
    simp only [InvImage, Line.unplaced, CommandLine.unplaced, hname, hdescription, List.map_nil]
  · refine Onward.bind (h.readDeclaration 2 2) fun tokens tokens' c₁ c₁' htokens h₁ hless₁ => ?_
    exact .ok ⟨congrArg Line.declaration (congrArg₂ DeclarationItem.mk hname htokens), rfl, h₁,
      hless₁⟩

theorem readMetadataLine (place : Place) (position position' : Position) (h : Tracks tail c c') :
    Follows (SameLine tail c'.rest.length) (Line.readMetadataLine place position c)
      (Line.readMetadataLine place position' c') := by
  refine Onward.bind (h.readMetadata position position')
    fun line line' c₁ c₁' hline h₁ hless₁ => ?_
  dsimp only
  split
  · exact .ok ⟨congrArg Line.metadata hline, rfl, h₁, hless₁⟩
  · exact .ok ⟨congrArg (fun line => Line.directive (.metadata line)) hline, rfl, h₁, hless₁⟩

theorem readFrom (place : Place) {first first' : Token} (hfirst : first.Echoes first')
    (h : Tracks tail c c') :
    Follows (SameLine tail (c'.rest.length + 1)) (Line.readFrom place first c)
      (Line.readFrom place first' c') := by
  have hkind := hfirst.kind
  by_cases hnewline : first.kind = .newline
  · simp only [Line.readFrom, hnewline, ← hkind]
    exact .ok ⟨rfl, rfl, h, Nat.lt_succ_self _⟩
  have hunplaced := hfirst.unplaced hnewline
  have hend {line line' : Line} (place : Place) (hline : line.unplaced = line'.unplaced) :
      Follows (SameLine tail (c'.rest.length + 1))
        (Line.readNewline c >>= fun c => .ok (line, place, c))
        (Line.readNewline c' >>= fun c => .ok (line', place, c)) :=
    h.readNewline.bind fun c₁ c₁' ⟨h₁, hless⟩ => .ok ⟨hline, rfl, h₁, Nat.lt_succ_of_lt hless⟩
  have hless {r r' : Except SyntaxError (Line × Place × Cursor)}
      (hr : Follows (SameLine tail c'.rest.length) r r') :
      Follows (SameLine tail (c'.rest.length + 1)) r r' :=
    hr.mono fun _ _ hsame => ⟨hsame.1, hsame.2.mono (Nat.le_succ _) id⟩
  obtain ⟨kind, text, position⟩ := first
  obtain ⟨kind', text', position'⟩ := first'
  obtain rfl : kind = kind' := hkind
  unfold Line.readFrom
  cases kind
  case newline => exact absurd rfl hnewline
  case description => exact hend _ (congrArg Line.comment hunplaced)
  case id =>
    refine Onward.bind h.readStringLine fun name name' c₁ c₁' hname h₁ hless => ?_
    exact .ok ⟨congrArg (Line.id .origin) hname, rfl, h₁, Nat.lt_succ_of_lt hless⟩
  case loadAndGo => exact hend _ rfl
  case parametersBegin => exact hend _ rfl
  case localsBegin => exact hend _ rfl
  case parametersEnd => exact hend _ rfl
  case localsEnd => exact hend _ rfl
  case metadata => exact hless (h.readMetadataLine place position position')
  case model =>
    refine Onward.bind (h.readModel position position') fun line line' c₁ c₁' hline h₁ hless => ?_
    exact .ok ⟨congrArg (fun line => Line.directive (.model line)) hline, rfl, h₁,
      Nat.lt_succ_of_lt hless⟩
  case engine =>
    refine Onward.bind (h.expectInline (by decide)) fun number number' c₁ c₁' hnumber h₁ hless => ?_
    refine h₁.readNewline.bind fun c₂ c₂' ⟨h₂, hless₂⟩ => ?_
    exact .ok ⟨congrArg (fun token => Line.directive (.engine .origin token)) hnumber, rfl, h₂,
      by dsimp only; omega⟩
  case epoch =>
    refine Onward.bind h.readStringLine fun name name' c₁ c₁' hname h₁ hless => ?_
    exact .ok ⟨congrArg (fun token => Line.directive (.epoch .origin token)) hname, rfl, h₁,
      Nat.lt_succ_of_lt hless⟩
  case requestEnd => exact hend _ rfl
  case immediate => exact hend _ rfl
  case hardware => exact hend _ rfl
  case groundEpoch =>
    refine Onward.bind (h.expectInline (by decide)) fun name name' c₁ c₁' hname h₁ hless₁ => ?_
    refine Onward.bind (h₁.expectInline (by decide)) fun _ _ c₂ c₂' _ h₂ hless₂ => ?_
    have htiming := congrArg₂ Timing.groundEpoch hunplaced hname
    refine Onward.bind (h₂.readRequest htiming) fun line line' c₃ c₃' hline h₃ hless₃ => ?_
    exact .ok ⟨congrArg Line.requestBegin hline, rfl, h₃, by dsimp only; omega⟩
  case identifier => exact hless (h.readNamed hunplaced)
  all_goals exact hless (h.readTimed hunplaced)

/-- The line of a place is read at both cursors, or the first text has come to its end and the
second goes on with the tail. -/
theorem readLine (place : Place) (h : Tracks tail c c') :
    Yields (Line.read place c) fun found =>
      (found = none ∧ Level.refusing? place.levels .endOfInput = none ∧ c'.rest = nextLine tail) ∨
        ∃ t t', found = some t ∧ Line.read place c' = .ok (some t') ∧
          SameLine tail c'.rest.length t t' := by
  refine (h.read place.levels).bind fun found hfound => ?_
  rcases hfound with ⟨rfl, hend⟩ | ⟨⟨first, c₁⟩, ⟨first', c₁'⟩, rfl, hread, hfirst⟩
  · exact .ok (.inl ⟨rfl, hend⟩)
  · have hless : c₁'.rest.length < c'.rest.length := hfirst.shorter
    refine Yields.bind (hfirst.tracks.readFrom place hfirst.result.1) fun t ⟨t', ht', hsame⟩ => ?_
    refine .ok (.inr ⟨t, t', rfl, ?_, hsame.1, hsame.2.mono hless id⟩)
    simp only [Line.read, hread, Bind.bind, Except.bind, ht']
    rfl

/-- All the lines of respaced texts are the same apart from their places. -/
theorem readAll {fuel fuel' : Nat} (place : Place) (h : Tracks [] c c')
    (hfuel : c'.rest.length < fuel') :
    Follows (InvImage Eq (List.map Line.unplaced)) (Line.readAll fuel place c)
      (Line.readAll fuel' place c') := by
  induction fuel generalizing place c c' fuel' with
  | zero => exact .error
  | succ fuel ih =>
    obtain ⟨fuel', rfl⟩ : ∃ k, fuel' = k + 1 := ⟨fuel' - 1, by omega⟩
    refine Yields.bind (h.readLine place) fun found hfound => ?_
    rcases hfound with ⟨rfl, hlevels, hend⟩ | ⟨⟨line, place₁, c₁⟩, ⟨line', place₁', c₁'⟩, rfl,
      hread, hsame⟩
    · refine .ok ⟨[], ?_, rfl⟩
      have hread := read_end (c := c') ⟨hend, Nat.zero_le _⟩ hlevels
      simp only [Line.readAll, Line.read, hread, Bind.bind, Except.bind]
      rfl
    · obtain ⟨hline, hplace, h₁, hless⟩ := hsame
      dsimp only at hline hplace h₁ hless ⊢
      subst hplace
      have hfuel' : c₁'.rest.length < fuel' := by omega
      refine Yields.bind (ih place₁ h₁ hfuel') fun lines ⟨lines', hlines', hlines⟩ => ?_
      refine .ok ⟨line' :: lines', ?_, congrArg₂ List.cons hline hlines⟩
      simp only [Line.readAll, hread, Bind.bind, Except.bind, hlines']
      rfl

end CommandSequence.Source.Cursor.Tracks
