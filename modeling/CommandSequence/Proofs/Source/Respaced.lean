import CommandSequence.Proofs.Source.Cursor

/-!
# Texts that differ between their lines

Two texts are respaced (`Respaced`) if they have the same lines, up to blank lines and lines of
comment after any line end, and up to the carriage return of a line end; the second may go on after
the last line of the first. No token but a line end reaches beyond its line, so the same tokens can
be cut off the front of both texts (`Respaced.cut?`), and what is left is respaced again. After a
line end the first text may have come to its end; the second then stands where it goes on
(`Continues`).
-/

namespace CommandSequence.Source

open Terminal

/-! ## Lines without meaning -/

/-- A line end: a line feed, alone or after a carriage return. -/
def IsBreak (text : List Char) : Prop :=
  text = [('\n' : Char)] ∨ text = [('\r' : Char), '\n']

/-- A line with blanks on it alone, or with blanks and a comment. -/
inductive IsIdle : List Char → Prop where
  | blank {blanks : List Char} (h : ∀ c ∈ blanks, isBlank c = true) :
      IsIdle (blanks ++ [('\n' : Char)])
  | comment {blanks comment : List Char} (h : ∀ c ∈ blanks, isBlank c = true)
    (hcomment : ∀ c ∈ comment, inComment c = true) :
    IsIdle (blanks ++ ('#' : Char) :: (comment ++ [('\n' : Char)]))

/-- Any number of lines without meaning. -/
inductive Filler : List Char → Prop where
  | nil : Filler []
  | cons {line lines : List Char} (h : IsIdle line) (hlines : Filler lines) : Filler (line ++ lines)

variable {tail text text' : List Char}

/-- Line ends go on over blanks, and from the mark of a comment to the end of its line. -/
theorem cutLineEnds_cons {c : Char} {rest : List Char} (hc : c ≠ '\n')
    (hreturn : c = '\r' → rest.head? ≠ some ('\n' : Char)) (commented : Bool) :
    (cutLineEnds commented (c :: rest)).2 =
      if commented && c != '\r' then (cutLineEnds true rest).2
      else if !commented && isBlank c then (cutLineEnds false rest).2
      else if !commented && c == '#' then (cutLineEnds true rest).2
      else c :: rest := by
  rw [cutLineEnds]
  · simp only [beq_iff_eq, hc, if_false]
    split
    · rfl
    · split
      · rfl
      · split <;> rfl
  · rintro more rfl rfl
    exact hreturn rfl rfl

/-- A comment that has begun runs to the end of its line. -/
theorem cutLineEnds_comment (text : List Char) :
    (cutLineEnds true text).2 = (cutLineEnds true (text.dropWhile inComment)).2 := by
  induction text with
  | nil => rfl
  | cons c text ih =>
    cases hc : inComment c with
    | false => rw [List.dropWhile_cons_of_neg (by simp [hc])]
    | true =>
      simp only [inComment, Bool.and_eq_true, bne_iff_ne] at hc
      rw [List.dropWhile_cons_of_pos (by simp [inComment, hc]), ← ih,
        cutLineEnds_cons hc.1 fun h => absurd h hc.2]
      simp [hc.2]

theorem nextLine_comment {comment : List Char} (h : ∀ c ∈ comment, inComment c = true)
    (text : List Char) : nextLine ('#' :: (comment ++ ('\n' : Char) :: text)) = nextLine text := by
  have hends := cutLineEnds_comment (comment ++ ('\n' : Char) :: text)
  rw [List.dropWhile_append_of_pos h] at hends
  exact hends

theorem nextLine_filler {lines : List Char} (h : Filler lines) (text : List Char) :
    nextLine (lines ++ text) = nextLine text := by
  induction h with
  | nil => rfl
  | cons hline _ ih =>
    rw [List.append_assoc]
    cases hline with
    | blank h =>
      rw [List.append_assoc, nextLine_blanks h, List.singleton_append, nextLine_newline, ih]
    | comment h hcomment =>
      rw [List.append_assoc, nextLine_blanks h, List.cons_append, List.append_assoc,
        List.singleton_append, nextLine_comment hcomment, ih]

theorem cutLineEnds_break {ending : List Char} (h : IsBreak ending) (commented : Bool)
    (rest : List Char) : (cutLineEnds commented (ending ++ rest)).2 = nextLine rest := by
  rcases h with rfl | rfl <;> rfl

theorem nextLine_break {ending : List Char} (h : IsBreak ending) (text : List Char) :
    nextLine (ending ++ text) = nextLine text := by
  rcases h with rfl | rfl <;> rfl

/-! ## Respaced texts -/

/-- The texts have the same lines, with other lines without meaning between them and other line
ends, and the second goes on with a tail. -/
inductive Respaced (tail : List Char) : List Char → List Char → Prop where
  | char {c : Char} {text text' : List Char} (hc : c ≠ '\n')
    (hreturn : c = '\r' → text.head? ≠ some ('\n' : Char) ∧ text'.head? ≠ some ('\n' : Char))
    (h : Respaced tail text text') : Respaced tail (c :: text) (c :: text')
  | line {ending ending' filler filler' text text' : List Char} (hending : IsBreak ending)
    (hending' : IsBreak ending') (hfiller : Filler filler) (hfiller' : Filler filler')
    (h : Respaced tail text text') :
    Respaced tail (ending ++ (filler ++ text)) (ending' ++ (filler' ++ text'))
  | last {ending ending' filler filler' : List Char} (hending : IsBreak ending)
    (hending' : IsBreak ending') (hfiller : Filler filler) (hfiller' : Filler filler') :
    Respaced tail (ending ++ filler) (ending' ++ (filler' ++ tail))

/-- The texts are respaced, or the first has come to its end and the second to the first line of
the tail. -/
def Continues (tail text text' : List Char) : Prop :=
  Respaced tail text text' ∨ (text = [] ∧ text' = nextLine tail)

namespace Respaced

/-- Where one text has a line end, so has the other; other characters are the same. -/
theorem head_cases (h : Respaced tail text text') :
    (∃ c rest rest', text = c :: rest ∧ text' = c :: rest' ∧ c ≠ '\n' ∧
      (c = '\r' → rest.head? ≠ some ('\n' : Char) ∧ rest'.head? ≠ some ('\n' : Char)) ∧
      Respaced tail rest rest') ∨
    ∃ ending ending' rest rest', text = ending ++ rest ∧ text' = ending' ++ rest' ∧
      IsBreak ending ∧ IsBreak ending' := by
  cases h with
  | char hc hreturn h => exact .inl ⟨_, _, _, rfl, rfl, hc, hreturn, h⟩
  | line hending hending' => exact .inr ⟨_, _, _, _, rfl, rfl, hending, hending'⟩
  | last hending hending' => exact .inr ⟨_, _, _, _, rfl, rfl, hending, hending'⟩

theorem ne_nil (h : Respaced tail text text') : text ≠ [] ∧ text' ≠ [] := by
  rcases h.head_cases with ⟨c, rest, rest', rfl, rfl, -⟩ |
    ⟨ending, ending', rest, rest', rfl, rfl, hending, hending'⟩
  · exact ⟨List.cons_ne_nil c rest, List.cons_ne_nil c rest'⟩
  · rcases hending with rfl | rfl <;> rcases hending' with rfl | rfl <;> simp

/-- A test that cannot tell a line feed from a carriage return cannot tell the texts apart. -/
theorem any_head? (h : Respaced tail text text') {p : Char → Bool} (hp : p '\n' = p '\r') :
    text.head?.any p = text'.head?.any p := by
  rcases h.head_cases with ⟨c, rest, rest', rfl, rfl, -⟩ |
    ⟨ending, ending', rest, rest', rfl, rfl, hending, hending'⟩
  · rfl
  · rcases hending with rfl | rfl <;> rcases hending' with rfl | rfl <;> simp [hp]

/-- A run of characters that are no line ends is the same in both texts. -/
theorem run (h : Respaced tail text text') {p : Char → Bool} (hfeed : p '\n' = false)
    (hreturn : p '\r' = false) : text.takeWhile p = text'.takeWhile p ∧
      Respaced tail (text.dropWhile p) (text'.dropWhile p) := by
  induction h with
  | @char c text text' hc hcr h ih =>
    cases hpc : p c with
    | true => simpa [hpc] using ih
    | false => simpa [hpc] using char hc hcr h
  | line hending hending' hfiller hfiller' h =>
    have := line hending hending' hfiller hfiller' h
    rcases hending with rfl | rfl <;> rcases hending' with rfl | rfl <;>
      simpa [hfeed, hreturn] using this
  | last hending hending' hfiller hfiller' =>
    have : Respaced tail _ _ := last hending hending' hfiller hfiller'
    rcases hending with rfl | rfl <;> rcases hending' with rfl | rfl <;>
      simpa [hfeed, hreturn] using this

/-! ## Tokens in respaced texts -/

/-- The same is cut off both texts, if anything, and what is left is respaced. -/
inductive Alike (tail : List Char) :
    Option (List Char × List Char) → Option (List Char × List Char) → Prop where
  | none : Alike tail none none
  | some {lexeme left left' : List Char} (h : Respaced tail left left') :
    Alike tail (some (lexeme, left)) (some (lexeme, left'))

namespace Alike

variable {cut cut' other other' : Option (List Char × List Char)}

theorem map (h : Alike tail cut cut') (f : List Char → List Char) :
    Alike tail (cut.map fun (lexeme, left) => (f lexeme, left))
      (cut'.map fun (lexeme, left) => (f lexeme, left)) := by
  cases h with
  | none => exact none
  | some h => exact some h

theorem filter (h : Alike tail cut cut') {p : List Char → Bool}
    (hp : ∀ left left', Respaced tail left left' → p left = p left') :
    Alike tail (cut.filter fun (_, left) => p left) (cut'.filter fun (_, left) => p left) := by
  cases h with
  | none => exact none
  | @some lexeme left left' h =>
    simp only [Option.filter, ← hp left left' h]
    split
    · exact some h
    · exact none

theorem ite {p : Prop} [Decidable p] {lexeme left left' : List Char}
    (h : Respaced tail left left') : Alike tail (if p then .some (lexeme, left) else .none)
      (if p then .some (lexeme, left') else .none) := by
  split
  · exact some h
  · exact none

theorem or (h : Alike tail cut cut') (hother : Alike tail other other') :
    Alike tail (cut.or other) (cut'.or other') := by
  cases h with
  | none => exact hother
  | some h => exact some h

end Alike

/-- A cut that finds nothing at a line end finds the same in both texts if it does so in texts that
begin with one character. -/
theorem alike_of_cons {cut : List Char → Option (List Char × List Char)}
    (h : Respaced tail text text') (hfeed : ∀ rest, cut ('\n' :: rest) = none)
    (hreturn : ∀ rest, cut ('\r' :: '\n' :: rest) = none)
    (hcons : ∀ c rest rest', Respaced tail (c :: rest) (c :: rest') → Respaced tail rest rest' →
      Alike tail (cut (c :: rest)) (cut (c :: rest'))) : Alike tail (cut text) (cut text') := by
  have hbreak {ending : List Char} (hending : IsBreak ending) (rest : List Char) :
      cut (ending ++ rest) = none := by
    rcases hending with rfl | rfl
    · exact hfeed rest
    · exact hreturn rest
  rcases h.head_cases with ⟨c, rest, rest', rfl, rfl, -, -, hrest⟩ |
    ⟨ending, ending', rest, rest', rfl, rfl, hending, hending'⟩
  · exact hcons c rest rest' h hrest
  · rw [hbreak hending, hbreak hending']
    exact .none

theorem endsWord_eq (h : Respaced tail text text') : endsWord text = endsWord text' := by
  have hany := h.any_head? (p := Character.isWord) (by decide)
  cases text <;> cases text' <;> simp_all [endsWord]

/-- Neither character of a line end is in the text. -/
def Inline (text : List Char) : Prop :=
  ('\n' : Char) ∉ text ∧ ('\r' : Char) ∉ text

theorem cutLiteral? {word : List Char} (hword : Inline word) (h : Respaced tail text text') :
    Alike tail (Terminal.cutLiteral? word text) (Terminal.cutLiteral? word text') := by
  induction word generalizing text text' with
  | nil => exact .some h
  | cons d word ih =>
    have hrest : Inline word :=
      ⟨fun hd => hword.1 (List.mem_cons_of_mem d hd), fun hd => hword.2 (List.mem_cons_of_mem d hd)⟩
    have hcut (c : Char) (rest : List Char) : Terminal.cutLiteral? (d :: word) (c :: rest) =
        if d = c then (Terminal.cutLiteral? word rest).map fun (lexeme, left) => (d :: lexeme, left)
        else none := by
      simp only [Terminal.cutLiteral?, List.isPrefixOf_cons_cons, List.length_cons,
        List.drop_succ_cons]
      by_cases hc : d = c
      · subst hc
        cases word.isPrefixOf rest <;> simp
      · simp [hc]
    refine h.alike_of_cons (fun rest => ?_) (fun rest => ?_) fun c rest rest' _ h => ?_
    · exact (hcut '\n' rest).trans (if_neg fun hd : d = '\n' => hword.1 (hd ▸ List.mem_cons_self))
    · exact (hcut '\r' _).trans (if_neg fun hd : d = '\r' => hword.2 (hd ▸ List.mem_cons_self))
    · rw [hcut, hcut]
      split
      · exact (ih hrest h).map _
      · exact .none

theorem cutWord? {word : List Char} (hword : Inline word) (h : Respaced tail text text') :
    Alike tail (Terminal.cutWord? word text) (Terminal.cutWord? word text') :=
  (cutLiteral? hword h).filter fun _ _ => endsWord_eq

theorem cutTagBody {sign inner : Char → Bool} (hsign : sign '\n' = false ∧ sign '\r' = false)
    (hinner : inner '\n' = false ∧ inner '\r' = false) (h : Respaced tail text text') :
    (Terminal.cutTagBody sign inner text).1 = (Terminal.cutTagBody sign inner text').1 ∧
      Respaced tail (Terminal.cutTagBody sign inner text).2
        (Terminal.cutTagBody sign inner text').2 := by
  rcases h.head_cases with ⟨c, rest, rest', rfl, rfl, -, -, hrest⟩ |
    ⟨ending, ending', rest, rest', rfl, rfl, hending, hending'⟩
  · have hdigit : beginsWithDigit rest = beginsWithDigit rest' := by
      have hany := hrest.any_head? (p := Character.isAsciiDigit) (by decide)
      cases rest <;> cases rest' <;> simp_all [beginsWithDigit]
    have hwhole := h.run hinner.1 hinner.2
    have hmore := hrest.run hinner.1 hinner.2
    simp only [Terminal.cutTagBody, ← hdigit]
    split
    · exact ⟨congrArg (c :: ·) hmore.1, hmore.2⟩
    · split
      · exact hwhole
      · exact ⟨rfl, h⟩
  · have hbreak {ending : List Char} (hending : IsBreak ending) (rest : List Char) :
        Terminal.cutTagBody sign inner (ending ++ rest) = ([], ending ++ rest) := by
      have hfeed : Character.isAsciiDigit '\n' = false := by decide
      have hreturn : Character.isAsciiDigit '\r' = false := by decide
      rcases hending with rfl | rfl <;> simp [Terminal.cutTagBody, hsign, hfeed, hreturn]
    rw [hbreak hending, hbreak hending']
    exact ⟨rfl, h⟩

theorem cutTag? {letter : Char} {sign inner : Char → Bool}
    (hsign : sign '\n' = false ∧ sign '\r' = false)
    (hinner : inner '\n' = false ∧ inner '\r' = false) (c : Char) (h : Respaced tail text text') :
    Alike tail (Terminal.cutTag? letter sign inner (c :: text))
      (Terminal.cutTag? letter sign inner (c :: text')) := by
  have hbody := cutTagBody hsign hinner h
  have hblank := hbody.2.any_head? (p := isBlank) (by decide)
  simp only [Terminal.cutTag?, ← hblank, hbody.1]
  split
  · exact .some hbody.2
  · exact .none

theorem cutHex? (c : Char) (h : Respaced tail text text') :
    Alike tail (Terminal.cutHex? (c :: text)) (Terminal.cutHex? (c :: text')) := by
  by_cases hc : c = '0'
  · subst hc
    let cut (text : List Char) := Terminal.cutHex? ('0' :: text)
    show Alike tail (cut text) (cut text')
    refine h.alike_of_cons (fun _ => rfl) (fun _ => rfl) fun x rest rest' _ h => ?_
    have hdigits := h.run (p := fun c => (Character.hexValue? c).isSome) (by decide) (by decide)
    simp only [cut, Terminal.cutHex?, hdigits.1, endsWord_eq hdigits.2]
    split
    · exact .some hdigits.2
    · exact .none
  · have hnone (text : List Char) : Terminal.cutHex? (c :: text) = none := by
      unfold Terminal.cutHex?
      split
      · next heq => cases heq; exact absurd rfl hc
      · rfl
    rw [hnone, hnone]
    exact .none

/-- A backslash does not carry a string over a line end. -/
theorem cutStringTail?_break {ending : List Char} (h : IsBreak ending) (rest : List Char) :
    Terminal.cutStringTail? (ending ++ rest) = none ∧
      Terminal.cutStringTail? ('\\' :: (ending ++ rest)) = none := by
  rcases h with rfl | rfl <;> exact ⟨rfl, rfl⟩

/-- A string ends on its line or not at all. -/
theorem cutStringTail? (h : Respaced tail text text') :
    Alike tail (Terminal.cutStringTail? text) (Terminal.cutStringTail? text') := by
  induction hn : text.length using Nat.strong_induction_on generalizing text text' with
  | _ n ih =>
    subst hn
    rcases h.head_cases with ⟨c, rest, rest', rfl, rfl, hfeed, -, hrest⟩ |
      ⟨ending, ending', rest, rest', rfl, rfl, hending, hending'⟩
    · by_cases hc : c = '\\'
      · subst hc
        rcases hrest.head_cases with ⟨d, more, more', rfl, rfl, hd, -, hmore⟩ |
          ⟨ending, ending', more, more', rfl, rfl, hending, hending'⟩
        · have hmap := (ih more.length (by simp only [List.length_cons]; omega) hmore rfl).map
            fun body => ('\\' : Char) :: d :: body
          simpa only [Terminal.cutStringTail?, beq_iff_eq, hd, if_false] using hmap
        · rw [(cutStringTail?_break hending more).2, (cutStringTail?_break hending' more').2]
          exact .none
      · have hcons (rest : List Char) : Terminal.cutStringTail? (c :: rest) =
            if c == '"' then some ([('"' : Char)], rest)
            else if c == '\n' || c == '\r' then none
            else (Terminal.cutStringTail? rest).map fun (body, left) => (c :: body, left) := by
          rw [Terminal.cutStringTail?]
          · exact fun h => absurd h hc
          · exact fun _ _ h => absurd h hc
        rw [hcons, hcons]
        split
        · exact .some hrest
        · split
          · exact .none
          · exact (ih rest.length (Nat.lt_succ_self _) hrest rfl).map (c :: ·)
    · rw [(cutStringTail?_break hending rest).1, (cutStringTail?_break hending' rest').1]
      exact .none

theorem cutIdentifier? (c : Char) (h : Respaced tail text text') :
    Alike tail (Terminal.cutIdentifier? (c :: text)) (Terminal.cutIdentifier? (c :: text')) := by
  have hrun := h.run (p := Character.isWord) (by decide) (by decide)
  simp only [Terminal.cutIdentifier?, hrun.1]
  split
  · exact .some hrun.2
  · exact .none

theorem cutNumeral? (h : Respaced tail text text') (stage : Numeral.Stage) :
    Alike tail (stage.cut? text) (stage.cut? text') := by
  have hbreak {ending : List Char} (hending : IsBreak ending) (stage : Numeral.Stage)
      (rest : List Char) : stage.cut? (ending ++ rest) =
        if stage.isFinal then some ([], ending ++ rest) else none := by
    have hnext : stage.next? '\n' = none ∧ stage.next? '\r' = none := by cases stage <;> decide
    have hfeed : Character.isWord '\n' = false := by decide
    have hreturn : Character.isWord '\r' = false := by decide
    rcases hending with rfl | rfl <;>
      simp [Numeral.Stage.cut?, hnext, Numeral.endsBefore, hfeed, hreturn]
  induction h generalizing stage with
  | @char c text text' hc hcr h ih =>
    have hcons (text : List Char) : stage.cut? (c :: text) =
        (((stage.next? c).bind fun next => next.cut? text).map fun (lexeme, left) =>
          (c :: lexeme, left)).or
          (if stage.isFinal && !(Character.isWord c || c == '.') then some ([], c :: text)
            else none) := by
      simp only [Numeral.Stage.cut?, Numeral.endsBefore]
      split
      · next heq => rw [heq]; rfl
      · next heq => rw [heq]; rfl
    rw [hcons, hcons]
    refine .or ?_ (.ite (char hc hcr h))
    cases stage.next? c with
    | none => exact .none
    | some next => exact (ih next).map (c :: ·)
  | line hending hending' hfiller hfiller' h =>
    rw [hbreak hending, hbreak hending']
    exact .ite (line hending hending' hfiller hfiller' h)
  | last hending hending' hfiller hfiller' =>
    rw [hbreak hending, hbreak hending']
    exact .ite (last hending hending' hfiller hfiller')

/-- Every token but a line end stays on its line. -/
theorem cut? {kind : Terminal} (hkind : kind ≠ .newline) (h : Respaced tail text text') :
    Alike tail (kind.cut? text) (kind.cut? text') := by
  have hstarts : kind.starts '\n' = false ∧ kind.starts '\r' = false := by
    cases kind
    all_goals first | exact absurd rfl hkind | decide
  refine h.alike_of_cons (fun _ => cut?_eq_none_of_starts hstarts.1)
    (fun _ => cut?_eq_none_of_starts hstarts.2) fun c rest rest' hwhole hrest => ?_
  cases hlit : kind.literal? with
  | some s =>
    rw [cut?_of_literal hlit, cut?_of_literal hlit]
    refine cutLiteral? ?_ hwhole
    cases kind
    all_goals first | cases hlit; exact ⟨by decide, by decide⟩ | cases hlit
  | none =>
    cases kind
    all_goals first | cases hlit; done | skip
    case hex => exact cutHex? c hrest
    case absoluteTime => exact cutTag? ⟨rfl, rfl⟩ (by decide) c hrest
    case commandComplete => exact cutTag? ⟨rfl, rfl⟩ ⟨rfl, rfl⟩ c hrest
    case commandRelative => exact cutTag? ⟨rfl, rfl⟩ (by decide) c hrest
    case epochRelative => exact cutTag? (by decide) (by decide) c hrest
    case groundEpoch => exact cutTag? (by decide) (by decide) c hrest
    case boolean =>
      exact (cutWord? ⟨by decide, by decide⟩ hwhole).or (cutWord? ⟨by decide, by decide⟩ hwhole)
    case null => exact cutWord? ⟨by decide, by decide⟩ hwhole
    case number => exact cutNumeral? hwhole .start
    case string =>
      by_cases hc : c = '"'
      · subst hc
        exact (cutStringTail? hrest).map ('"' :: ·)
      · have hnone (rest : List Char) : Terminal.cut? .string (c :: rest) = none :=
          cut?_eq_none_of_starts (by simpa [starts] using hc)
        rw [hnone, hnone]
        exact .none
    case identifier => exact cutIdentifier? c hrest
    case description =>
      by_cases hc : c = '#'
      · subst hc
        have hrun := hrest.run (p := inComment) rfl rfl
        simp only [Terminal.cut?, cutDescription?, hrun.1]
        exact .some hrun.2
      · have hnone (rest : List Char) : Terminal.cut? .description (c :: rest) = none :=
          cut?_eq_none_of_starts (by simpa [starts] using hc)
        rw [hnone, hnone]
        exact .none
    case newline => exact absurd rfl hkind
    case endOfInput => exact .none

/-! ## Line ends in respaced texts -/

/-- Line ends lead to the same line in both texts, or to the end of the first and on to the tail. -/
theorem cutLineEnds (h : Respaced tail text text') (commented : Bool) :
    Continues tail (Terminal.cutLineEnds commented text).2
      (Terminal.cutLineEnds commented text').2 := by
  induction h generalizing commented with
  | char hc hreturn h ih =>
    rw [cutLineEnds_cons hc fun h => (hreturn h).1, cutLineEnds_cons hc fun h => (hreturn h).2]
    split
    · exact ih true
    · split
      · exact ih false
      · split
        · exact ih true
        · exact .inl (char hc hreturn h)
  | line hending hending' hfiller hfiller' _ ih =>
    rw [cutLineEnds_break hending, cutLineEnds_break hending', nextLine_filler hfiller,
      nextLine_filler hfiller']
    exact ih false
  | @last ending ending' filler filler' hending hending' hfiller hfiller' =>
    have hend := nextLine_filler hfiller []
    rw [List.append_nil] at hend
    rw [cutLineEnds_break hending, cutLineEnds_break hending', hend, nextLine_filler hfiller']
    exact .inr ⟨rfl, rfl⟩

theorem nextLine (h : Respaced tail text text') :
    Continues tail (Source.nextLine text) (Source.nextLine text') :=
  h.cutLineEnds false

theorem cutNewline?_eq_none {c : Char} {rest : List Char} (hc : c ≠ '\n')
    (hreturn : c = '\r' → rest.head? ≠ some ('\n' : Char)) :
    Terminal.cutNewline? (c :: rest) = none := by
  have hpair : [('\r' : Char), '\n'].isPrefixOf (c :: rest) = false := by
    rw [Bool.eq_false_iff, ne_eq, List.isPrefixOf_iff_prefix]
    rintro ⟨more, heq⟩
    cases heq
    exact hreturn rfl rfl
  simp [Terminal.cutNewline?, hc, hpair]

theorem cutNewline?_break {ending : List Char} (h : IsBreak ending) (rest : List Char) :
    Terminal.cutNewline? (ending ++ rest) =
      some (Terminal.cutLineEnds false (ending ++ rest)) := by
  rcases h with rfl | rfl <;> rfl

/-- Both texts have a line end in front, or neither. -/
theorem cutNewline? (h : Respaced tail text text') :
    (Terminal.cutNewline? text = none ∧ Terminal.cutNewline? text' = none) ∨
      (Terminal.cutNewline? text = some (Terminal.cutLineEnds false text) ∧
        Terminal.cutNewline? text' = some (Terminal.cutLineEnds false text')) := by
  rcases h.head_cases with ⟨c, rest, rest', rfl, rfl, hc, hreturn, -⟩ |
    ⟨ending, ending', rest, rest', rfl, rfl, hending, hending'⟩
  · exact .inl ⟨cutNewline?_eq_none hc fun h => (hreturn h).1,
      cutNewline?_eq_none hc fun h => (hreturn h).2⟩
  · exact .inr ⟨cutNewline?_break hending rest, cutNewline?_break hending' rest'⟩

/-- A kind of which the first text has no token has none in the second. -/
theorem cut?_eq_none (h : Respaced tail text text') {kind : Terminal}
    (hcut : kind.cut? text = none) : kind.cut? text' = none := by
  by_cases hkind : kind = .newline
  · subst hkind
    rcases h.cutNewline? with ⟨-, hnone⟩ | ⟨hsome, -⟩
    · exact hnone
    · exact absurd (hsome.symm.trans hcut) (by simp)
  · have halike := h.cut? hkind
    rw [hcut] at halike
    cases hcut' : kind.cut? text' with
    | none => rfl
    | some found => rw [hcut'] at halike; cases halike

/-- What is found in the first text is found in the second: the same token, or a line end in
both. -/
theorem firstCut? {kinds : List Terminal} {kind : Terminal} {lexeme left : List Char}
    (h : Respaced tail text text')
    (hfound : Cursor.firstCut? kinds text = some (kind, lexeme, left)) :
    ∃ lexeme' left', Cursor.firstCut? kinds text' = some (kind, lexeme', left') ∧
      (kind ≠ .newline → lexeme = lexeme') ∧ Continues tail left left' := by
  obtain ⟨hmem, hcut, hrivals⟩ := Cursor.of_firstCut? hfound
  have hfirst {lexeme' left' : List Char} (hcut' : kind.cut? text' = some (lexeme', left')) :
      Cursor.firstCut? kinds text' = some (kind, lexeme', left') :=
    Cursor.firstCut?_eq hmem hcut' fun k hk hkinds => h.cut?_eq_none (hrivals k hk hkinds)
  by_cases hkind : kind = .newline
  · subst hkind
    rcases h.cutNewline? with ⟨hnone, -⟩ | ⟨hsome, hsome'⟩
    · exact absurd (hcut.symm.trans hnone) (by simp)
    · obtain rfl := congrArg Prod.snd (Option.some.inj (hcut.symm.trans hsome))
      exact ⟨_, _, hfirst hsome', fun h => absurd rfl h, h.nextLine⟩
  · have halike := h.cut? hkind
    rw [hcut] at halike
    cases hcut' : kind.cut? text' with
    | none => rw [hcut'] at halike; cases halike
    | some found =>
      rw [hcut'] at halike
      cases halike with
      | some hleft => exact ⟨_, _, hfirst hcut', fun _ => rfl, .inl hleft⟩

end Respaced

end CommandSequence.Source
