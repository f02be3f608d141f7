import CommandSequence.Proofs.Source.Lines
import CommandSequence.Proofs.Text.Cut

/-!
# Reading declarations back

A declaration is a name, up to two words and up to two lists between quotes. The lists are read back
because no piece of one holds a comma, and a range because its ends hold no two points in a row. A
declaration is given back as it is *reread*: the name of an enumeration that is a type is one.
-/

namespace CommandSequence

open Source (Terminal Token Cursor Level Lexes Begins nextLine Place Region)

/-! ## Lists between quotes -/

/-- Pieces that hold no separator are split where they were joined. -/
theorem Cut.split_joined {separator : Char} {pieces : List (List Char)} (hne : pieces ≠ [])
    (hpieces : ∀ piece ∈ pieces, separator ∉ piece) :
    Cut.split separator (ToText.joined [separator] pieces) = pieces := by
  induction pieces with
  | nil => exact absurd rfl hne
  | cons piece pieces ih =>
    obtain ⟨hfirst, hrest⟩ := List.forall_mem_cons.1 hpieces
    rw [ReadBack.joined_cons]
    cases pieces with
    | nil => simpa using split_of_notMem hfirst
    | cons next more =>
      simp only [List.isEmpty_cons, Bool.false_eq_true, if_false, List.cons_append, List.nil_append]
      rw [split_append, split_of_notMem hfirst, ih (List.cons_ne_nil _ _) hrest,
        List.singleton_append]

namespace ReadBack

variable {c : Cursor} {place : Place} {text rest : List Char}

theorem isPlain_of_isAsciiDigit {c : Char} (h : Character.isAsciiDigit c = true) :
    Quoted.IsPlain c ∧ c ≠ ',' := by
  have hne (d : Char) (hd : Character.isAsciiDigit d = false) : c ≠ d := by
    rintro rfl
    rw [h] at hd
    cases hd
  exact ⟨⟨hne _ rfl, hne _ rfl, hne _ rfl, hne _ rfl⟩, hne _ rfl⟩

/-- The text of a number holds nothing that has a meaning in a list. -/
theorem isPlain_of_mem_literal {n : Number} (h : n.literal = .ok text) :
    ∀ c ∈ text, Quoted.IsPlain c ∧ c ≠ ',' := by
  obtain ⟨s, rfl, hs, -⟩ := Number.exists_spelling h
  have hmarks : ∀ c ∈ [('-' : Char), '+', '.', 'e', 'E'], Quoted.IsPlain c ∧ c ≠ ',' :=
    List.all_iff_forall_prop.1 (by decide)
  intro c hc
  rcases Spelling.mem_text hs hc with h | h
  · exact isPlain_of_isAsciiDigit h
  · exact hmarks c h

/-! ## Ranges -/

/-- What stands before the first three points and what stands after them make up the text. -/
theorem append_splitAtDots (text : List Char) :
    (OfOutline.splitAtDots text).1 ++
      (OfOutline.splitAtDots text).2.elim [] ([('.' : Char), '.', '.'] ++ ·) = text := by
  fun_induction OfOutline.splitAtDots text with
  | case1 rest => rfl
  | case2 c rest _ before after heq ih =>
    rw [heq] at ih
    exact congrArg (c :: ·) ih
  | case3 => rfl

theorem splitAtDots_of_ne {d : Char} (h : d ≠ '.') (text : List Char) :
    OfOutline.splitAtDots (d :: text) =
      (d :: (OfOutline.splitAtDots text).1, (OfOutline.splitAtDots text).2) := by
  rw [OfOutline.splitAtDots]
  rintro _ rfl
  exact absurd rfl h

theorem splitAtDots_run {run text : List Char} (h : ∀ d ∈ run, d ≠ '.') :
    OfOutline.splitAtDots (run ++ text) =
      (run ++ (OfOutline.splitAtDots text).1, (OfOutline.splitAtDots text).2) := by
  induction run with
  | nil => rfl
  | cons d run ih =>
    obtain ⟨hd, hrun⟩ := List.forall_mem_cons.1 h
    rw [List.cons_append, splitAtDots_of_ne hd, ih hrun]
    rfl

theorem ne_point_of_isAsciiDigit {run : List Char}
    (h : ∀ d ∈ run, Character.isAsciiDigit d = true) : ∀ d ∈ run, d ≠ '.' := by
  rintro d hd rfl
  exact absurd (h _ hd) (by decide)

theorem ne_point_of_mem_sign (s : Spelling) : ∀ d ∈ s.sign, d ≠ '.' := by
  unfold Spelling.sign
  split
  · exact List.forall_mem_singleton.2 (by decide)
  · exact List.forall_mem_nil _

theorem ne_point_of_mem_marked {s : Spelling} (hs : s.Proper) : ∀ d ∈ s.marked, d ≠ '.' := by
  unfold Spelling.marked
  split
  · exact List.forall_mem_nil _
  · next mark digits hexponent =>
    obtain ⟨-, hrun⟩ := hs.exponent mark digits hexponent
    refine List.forall_mem_cons.2
      ⟨?_, List.forall_mem_append.2 ⟨fun d hd => ?_, ne_point_of_isAsciiDigit hrun⟩⟩
    · rcases mark.letter_eq with h | h <;> rw [h] <;> decide
    · rcases Spelling.Mark.mem_signed hd with rfl | rfl <;> decide

/-- A point before something else than two more is none of the points between the ends. -/
theorem splitAtDots_point {d : Char} (hd : d ≠ '.') (text : List Char) :
    OfOutline.splitAtDots (('.' : Char) :: d :: text) =
      (('.' : Char) :: (OfOutline.splitAtDots (d :: text)).1,
      (OfOutline.splitAtDots (d :: text)).2) := by
  rw [OfOutline.splitAtDots]
  rintro _ - heq
  exact hd (List.cons.inj heq).1

/-- The ends of a range are told apart at the first three points. -/
theorem splitAtDots_text {s : Spelling} (hs : s.Proper) (text : List Char) :
    OfOutline.splitAtDots (s.text ++ (('.' : Char) :: ('.' : Char) :: ('.' : Char) :: text)) =
      (s.text, some text) := by
  have hend : OfOutline.splitAtDots
      (s.marked ++ (('.' : Char) :: ('.' : Char) :: ('.' : Char) :: text)) =
      (s.marked, some text) := by
    rw [splitAtDots_run (ne_point_of_mem_marked hs)]
    simp [OfOutline.splitAtDots]
  have hpointed : OfOutline.splitAtDots
      (s.pointed ++ (s.marked ++ (('.' : Char) :: ('.' : Char) :: ('.' : Char) :: text))) =
      (s.pointed ++ s.marked, some text) := by
    unfold Spelling.pointed
    split
    · exact hend
    · cases hfraction : s.fraction with
      | nil => next h => rw [hfraction] at h; exact absurd rfl h
      | cons d fraction =>
        have hrun : ∀ x ∈ d :: fraction, x ≠ '.' :=
          ne_point_of_isAsciiDigit (hfraction ▸ hs.fraction)
        rw [List.cons_append, List.cons_append, splitAtDots_point (hrun d (List.mem_cons_self ..)),
          ← List.cons_append, splitAtDots_run hrun, hend]
        rfl
  simp only [Spelling.text, List.append_assoc]
  rw [splitAtDots_run (ne_point_of_mem_sign s),
    splitAtDots_run (ne_point_of_isAsciiDigit hs.whole.digit), hpointed]

/-- The text of a number begins and ends with no blank. -/
theorem trimBoth_text {s : Spelling} (hs : s.Proper) :
    Character.trimBoth Character.isBlank s.text = s.text := by
  have hblank : ∀ d ∈ s.text, Character.isBlank d = false := by
    have hmarks : ∀ d ∈ [('-' : Char), '+', '.', 'e', 'E'], Character.isBlank d = false :=
      List.all_iff_forall_prop.1 (by decide)
    intro d hd
    rcases Spelling.mem_text hs hd with h | h
    · have hrange := Character.isAsciiDigit_iff.1 h
      simp only [Character.isBlank, Character.isWhiteSpace]
      simp
      omega
    · exact hmarks d h
  have hdrop {run : List Char} (h : ∀ d ∈ run, Character.isBlank d = false) :
      run.dropWhile Character.isBlank = run := by
    cases run with
    | nil => rfl
    | cons d run =>
      exact List.dropWhile_cons_of_neg
        (by rw [h d (List.mem_cons_self ..)]; exact Bool.false_ne_true)
  rw [Character.trimBoth, hdrop hblank, hdrop fun d hd => hblank d (List.mem_reverse.1 hd),
    List.reverse_reverse]

theorem number?_literal {n : Number} (h : n.literal = .ok text) :
    OfOutline.number? text = .ok (some n) := by
  rw [OfOutline.number?, Number.read?_literal h]

/-- A written range is read back. -/
theorem range_ok {r : Range} (position : Source.Position) (h : r.write = .ok text) :
    OfOutline.range position text = .ok r ∧ ∀ c ∈ text, Quoted.IsPlain c ∧ c ≠ ',' := by
  obtain ⟨min, hmin, h⟩ := bind_eq_ok.1 h
  obtain ⟨max, hmax, h⟩ := bind_eq_ok.1 h
  cases h
  have hdots : ∀ c ∈ ToText.fixed "...", Quoted.IsPlain c ∧ c ≠ ',' :=
    List.all_iff_forall_prop.1 (by decide)
  constructor
  · obtain ⟨s, hs, hproper, -⟩ := Number.exists_spelling hmin
    obtain ⟨t, ht, htproper, -⟩ := Number.exists_spelling hmax
    subst hs
    subst ht
    have hsplit : OfOutline.splitAtDots (s.text ++ ToText.fixed "..." ++ t.text) =
        (s.text, some t.text) := by
      rw [List.append_assoc]
      exact splitAtDots_text hproper t.text
    rw [OfOutline.range, hsplit]
    simp only [Option.getD_some, trimBoth_text hproper, trimBoth_text htproper,
      number?_literal hmin, number?_literal hmax]
    rfl
  · intro c hc
    rcases List.mem_append.1 hc with hc | hc
    · rcases List.mem_append.1 hc with hc | hc
      · exact isPlain_of_mem_literal hmin c hc
      · exact hdots c hc
    · exact isPlain_of_mem_literal hmax c hc

/-- A written allowable value is read back. -/
theorem allowableValue_ok {v : AllowableValue} (h : v.write = .ok text) :
    OfOutline.allowableValue text = .ok v ∧ ∀ c ∈ text, Quoted.IsPlain c ∧ c ≠ ',' := by
  cases v with
  | number n =>
    refine ⟨?_, isPlain_of_mem_literal h⟩
    rw [OfOutline.allowableValue, number?_literal h]
    rfl
  | text s =>
    simp only [AllowableValue.write] at h
    split at h
    · cases h
    · next hsafe =>
      split at h
      · cases h
      · cases h
      · next hnone =>
        cases h
        constructor
        · rw [OfOutline.allowableValue, OfOutline.number?, hnone]
          simp only [Bind.bind, Except.bind, String.ofList_toList]
          rfl
        · intro c hc
          have hplain : AllowableValue.isUnsafe c = false := by
            cases hunsafe : AllowableValue.isUnsafe c with
            | false => rfl
            | true => exact absurd (List.any_eq_true.2 ⟨c, hc, hunsafe⟩) hsafe
          simp only [AllowableValue.isUnsafe, Bool.or_eq_false_iff, beq_eq_false_iff_ne] at hplain
          obtain ⟨⟨⟨⟨hcomma, hquote⟩, hslash⟩, hreturn⟩, hline⟩ := hplain
          exact ⟨⟨hslash, hquote, hline, hreturn⟩, hcomma⟩

/-- The pieces of a list, each of which is read back and plain, are read back from their list. -/
theorem mapM_split_joined {α ε : Type} {items : List α} {write : α → Except WriteError (List Char)}
    {read : List Char → Except ε α} {pieces : List (List Char)} (hne : pieces ≠ [])
    (hwrite : items.mapM write = .ok pieces)
    (hread : ∀ a text, write a = .ok text → read text = .ok a ∧
      ∀ c ∈ text, Quoted.IsPlain c ∧ c ≠ ',') :
    (Cut.split ',' (ToText.joined [','] pieces)).mapM read = .ok items := by
  have hforall := mapM_eq_ok.1 hwrite
  have hcomma : ∀ piece ∈ pieces, (',' : Char) ∉ piece :=
    forall_mem_of_mapM hwrite fun a _ piece ha hmem => ((hread a piece ha).2 _ hmem).2 rfl
  rw [Cut.split_joined hne hcomma, mapM_eq_ok]
  exact hforall.flip.imp fun piece a h => (hread a piece h).1

/-- A list of plain pieces between quotes is plain. -/
theorem isPlain_of_mem_joined {pieces : List (List Char)}
    (h : ∀ piece ∈ pieces, ∀ c ∈ piece, Quoted.IsPlain c) :
    ∀ c ∈ ToText.joined [','] pieces, Quoted.IsPlain c := by
  induction pieces with
  | nil => simp [joined_nil]
  | cons piece pieces ih =>
    obtain ⟨hfirst, hrest⟩ := List.forall_mem_cons.1 h
    rw [joined_cons]
    intro c hc
    rcases List.mem_append.1 hc with hc | hc
    · exact hfirst c hc
    · split at hc
      · cases hc
      · rcases List.mem_append.1 hc with hc | hc
        · rw [List.mem_singleton.1 hc]
          unfold Quoted.IsPlain
          decide
        · exact ih hrest c hc

/-! ## Words and strings -/

/-- The quoted lists of a declaration are read back, wherever a word may stand before them. -/
theorem readLists_ok {lists : List (List Char)} (m : Nat) {n : Nat} (hn : lists.length ≤ n)
    (hlists : ∀ s ∈ lists, Quoted.IsBody s)
    (hc : c.Before
      ((lists.map fun s => (' ' : Char) :: ('"' : Char) :: (s ++ [('"' : Char)])).flatten ++
        ('\n' : Char) :: rest)) :
    Succeeds (Source.Line.readDeclaration m n c) fun found =>
      List.Forall₂ (fun (token : Token) s => token.Is .string ('"' :: (s ++ [('"' : Char)])))
        found.1 lists ∧ found.2.Before (nextLine rest) := by
  induction lists generalizing m n c with
  | nil =>
    have hend {kinds : List Terminal} (hkinds : .newline ∈ kinds) :
        Succeeds (c.expect kinds) fun found =>
          (found.1.kind == Terminal.newline) = true ∧ found.2.Before (nextLine rest) := by
      refine (Cursor.expect_ok hc ((Begins.newline rest).lexes hkinds)).mono ?_
      rintro _ ⟨htoken, hafter⟩
      exact ⟨by rw [htoken.kind]; rfl, hafter⟩
    rcases m, n with ⟨_ | m, _ | n⟩
    · rw [Source.Line.readDeclaration]
      exact (readNewline_ok hc).bind fun c hc => .ok ⟨.nil, hc⟩
    all_goals
      rw [Source.Line.readDeclaration]
      refine (hend (by decide)).bind ?_
      rintro ⟨token, c⟩ ⟨hkind, hc⟩
      simp only [hkind, if_true]
      exact .ok ⟨.nil, hc⟩
  | cons s lists ih =>
    obtain ⟨n, rfl⟩ : ∃ k, n = k + 1 := ⟨n - 1, by simp at hn; omega⟩
    obtain ⟨hs, hrest⟩ := List.forall_mem_cons.1 hlists
    simp only [List.map_cons, List.flatten_cons, List.cons_append, List.append_assoc,
      List.nil_append] at hc
    have hopen {kinds : List Terminal} (hkinds : .string ∈ kinds) :
        Succeeds (c.expect kinds) fun found =>
          found.1.Is .string ('"' :: (s ++ [('"' : Char)])) ∧
          (found.1.kind == Terminal.newline) = false ∧
            (found.1.kind == Terminal.identifier) = false ∧ found.2.Before
              ((lists.map fun s => (' ' : Char) :: ('"' : Char) :: (s ++ [('"' : Char)])).flatten ++
                ('\n' : Char) :: rest) := by
      refine (Cursor.expect_ok hc ((Begins.quoted hs _).lexes hkinds).blank).mono ?_
      rintro _ ⟨htoken, hafter⟩
      exact ⟨htoken, by rw [htoken.kind]; rfl, by rw [htoken.kind]; rfl, hafter⟩
    -- After a list no word may stand, so the count of words matters for the first token only.
    cases m with
    | zero =>
      rw [Source.Line.readDeclaration]
      refine (hopen (by decide)).bind ?_
      rintro ⟨token, c⟩ ⟨htoken, hend, _, hc⟩
      simp only [hend]
      refine (ih 0 (by simpa using hn) hrest hc).bind ?_
      rintro ⟨tokens, c⟩ ⟨htokens, hc⟩
      exact .ok ⟨.cons htoken htokens, hc⟩
    | succ m =>
      rw [Source.Line.readDeclaration]
      refine (hopen (by decide)).bind ?_
      rintro ⟨token, c⟩ ⟨htoken, hend, hword, hc⟩
      simp only [hend, hword]
      refine (ih 0 (by simpa using hn) hrest hc).bind ?_
      rintro ⟨tokens, c⟩ ⟨htokens, hc⟩
      exact .ok ⟨.cons htoken htokens, hc⟩

/-- The words of a declaration are read back, and then its quoted lists. -/
theorem readDeclaration_ok {words : List (List Char)} {lists : List (List Char)} {m n : Nat}
    (hm : words.length ≤ m) (hn : lists.length ≤ n)
    (hwords : ∀ w ∈ words, isIdentifier w = true)
    (hlists : ∀ s ∈ lists, Quoted.IsBody s)
    (hc : c.Before ((words.map ((' ' : Char) :: ·)).flatten ++
      ((lists.map fun s => (' ' : Char) :: ('"' : Char) :: (s ++ [('"' : Char)])).flatten ++
        ('\n' : Char) :: rest))) :
    Succeeds (Source.Line.readDeclaration m n c) fun found =>
      ∃ named quoted, found.1 = named ++ quoted ∧
        List.Forall₂ (fun (token : Token) w => token.Is .identifier w) named words ∧
        List.Forall₂ (fun (token : Token) s => token.Is .string ('"' :: (s ++ [('"' : Char)])))
          quoted lists ∧
        found.2.Before (nextLine rest) := by
  induction words generalizing m c with
  | nil =>
    exact (readLists_ok m hn hlists hc).mono fun found h => ⟨[], found.1, rfl, .nil, h.1, h.2⟩
  | cons w words ih =>
    obtain ⟨m, rfl⟩ : ∃ k, m = k + 1 := ⟨m - 1, by simp at hm; omega⟩
    obtain ⟨hw, hrest⟩ := List.forall_mem_cons.1 hwords
    simp only [List.map_cons, List.flatten_cons, List.cons_append, List.append_assoc] at hc
    have hends : Terminal.endsWord ((words.map ((' ' : Char) :: ·)).flatten ++
        ((lists.map fun s => (' ' : Char) :: ('"' : Char) :: (s ++ [('"' : Char)])).flatten ++
          ('\n' : Char) :: rest)) = true := by
      cases words with
      | cons w words => rfl
      | nil => cases lists <;> rfl
    rw [Source.Line.readDeclaration]
    refine (Cursor.expect_ok hc (Lexes.plain (by decide) hw hends (by decide)).blank).bind ?_
    rintro ⟨token, c⟩ ⟨htoken, hc⟩
    have hword : (token.kind == Terminal.newline) = false ∧
        (token.kind == Terminal.identifier) = true := by rw [htoken.kind]; decide
    simp only [hword.1, hword.2, if_true]
    refine (ih (by simpa using hm) hrest hc).bind ?_
    rintro ⟨tokens, c⟩ ⟨named, quoted, htokens, hnamed, hquoted, hc⟩
    have happend : token :: tokens = token :: named ++ quoted := congrArg (token :: ·) htokens
    exact .ok ⟨token :: named, quoted, happend, .cons htoken hnamed, hquoted, hc⟩

/-! ## Whole declarations -/

/-- The words after the name of a declaration. -/
def declarationWords (d : Declaration) : List (List Char) :=
  (d.type.map fun type => type.keyword.toList).toList ++ (d.enumName.map String.toList).toList

/-- The lists of a declaration, the first of which is empty if only the second is needed. -/
def declarationLists (ranges values : List (List Char)) : List (List Char) :=
  if ranges.isEmpty && values.isEmpty then []
  else ToText.joined [','] ranges ::
    if values.isEmpty then [] else [ToText.joined [','] values]

theorem declaration_write {d : Declaration} (h : d.write = .ok text) :
    ∃ ranges values, d.ranges.mapM Range.write = .ok ranges ∧
      d.values.mapM AllowableValue.write = .ok values ∧
      text = d.name.toList ++ (((declarationWords d).map ((' ' : Char) :: ·)).flatten ++
        (((declarationLists ranges values).map fun s => (' ' : Char) :: ('"' : Char) ::
          (s ++ [('"' : Char)])).flatten ++
          [('\n' : Char)])) := by
  obtain ⟨ranges, hranges, h⟩ := bind_eq_ok.1 h
  obtain ⟨values, hvalues, h⟩ := bind_eq_ok.1 h
  cases h
  refine ⟨ranges, values, hranges, hvalues, ?_⟩
  have hwords : ((declarationWords d).map ((' ' : Char) :: ·)).flatten =
      (d.type.elim [] fun type => (' ' : Char) :: type.keyword.toList) ++
        d.enumName.elim [] fun name => (' ' : Char) :: name.toList := by
    cases htype : d.type <;> cases hname : d.enumName <;> simp [declarationWords, htype, hname]
  have hlists : ((declarationLists ranges values).map fun s => (' ' : Char) :: ('"' : Char) ::
      (s ++ [('"' : Char)])).flatten =
      (if ranges.isEmpty && values.isEmpty then [] else Declaration.writeList ranges) ++
        if values.isEmpty then [] else Declaration.writeList values := by
    cases ranges <;> cases values <;> simp [declarationLists, Declaration.writeList]
  rw [hwords, hlists]
  simp only [List.append_assoc]
  cases d.type <;> cases d.enumName <;> rfl

/-- The words give the type and the enumeration, or only a type if that is what the single word
is. -/
theorem typing_ok (d : Declaration) (name : String) {named : List Token}
    (h : List.Forall₂ (fun (token : Token) w => token.Is .identifier w) named
      (declarationWords d)) :
    OfOutline.typing name named = .ok (d.reread.type, d.reread.enumName) := by
  have hword {token : Token} {s : String} (ht : token.Is .identifier s.toList) :
      OfOutline.word token = s := by rw [OfOutline.word, ht.text, String.ofList_toList]
  have hkeyword (type : VariableType) : VariableType.ofKeyword? type.keyword = some type := by
    cases type <;> decide
  cases htype : d.type with
  | none =>
    cases hname : d.enumName with
    | none =>
      simp only [declarationWords, htype, hname, Option.map_none, Option.toList_none,
        List.append_nil, List.forall₂_nil_right_iff] at h
      subst h
      simp [OfOutline.typing, Declaration.reread, htype, hname]
    | some enumName =>
      simp only [declarationWords, htype, hname, Option.map_none, Option.map_some,
        Option.toList_none, Option.toList_some, List.nil_append] at h
      obtain ⟨token, more, htoken, hmore, rfl⟩ := List.forall₂_cons_right_iff.1 h
      obtain rfl := List.forall₂_nil_right_iff.1 hmore
      cases hfound : VariableType.ofKeyword? enumName with
      | none => simp [OfOutline.typing, hword htoken, hfound, Declaration.reread, htype, hname]
      | some type => simp [OfOutline.typing, hword htoken, hfound, Declaration.reread, htype, hname]
  | some type =>
    cases hname : d.enumName with
    | none =>
      simp only [declarationWords, htype, hname, Option.map_none, Option.map_some,
        Option.toList_none, Option.toList_some, List.append_nil] at h
      obtain ⟨token, more, htoken, hmore, rfl⟩ := List.forall₂_cons_right_iff.1 h
      obtain rfl := List.forall₂_nil_right_iff.1 hmore
      simp [OfOutline.typing, hword htoken, hkeyword, Declaration.reread, htype, hname]
    | some enumName =>
      simp only [declarationWords, htype, hname, Option.map_some, Option.toList_some,
        List.cons_append, List.nil_append] at h
      obtain ⟨first, more, hfirst, hmore, rfl⟩ := List.forall₂_cons_right_iff.1 h
      obtain ⟨second, rest, hsecond, hrest, rfl⟩ := List.forall₂_cons_right_iff.1 hmore
      simp [OfOutline.typing, hword hfirst, hword hsecond, hkeyword, Declaration.reread, htype,
        hname]

theorem range_ne_nil {r : Range} (h : r.write = .ok text) : text ≠ [] := by
  obtain ⟨min, hmin, h⟩ := bind_eq_ok.1 h
  obtain ⟨max, hmax, h⟩ := bind_eq_ok.1 h
  cases h
  simp [ToText.fixed]

/-- The first list gives the ranges. -/
theorem ranges_ok {ranges : List Range} {pieces : List (List Char)} (position : Source.Position)
    (more : List String) (hranges : ranges.mapM Range.write = .ok pieces) :
    OfOutline.ranges position (String.ofList (ToText.joined [','] pieces) :: more) =
      .ok ranges := by
  cases pieces with
  | nil =>
    obtain rfl : ranges = [] := List.forall₂_nil_right_iff.1 (mapM_eq_ok.1 hranges)
    simp [joined_nil, OfOutline.ranges]
  | cons piece pieces =>
    obtain ⟨r, _, hr, -, -⟩ := List.forall₂_cons_right_iff.1 (mapM_eq_ok.1 hranges)
    have hfilled : (String.ofList (ToText.joined [','] (piece :: pieces))).isEmpty = false := by
      rw [Bool.eq_false_iff, ne_eq, String.isEmpty_iff, ← String.toList_inj, String.toList_ofList,
        joined_cons]
      exact fun h => range_ne_nil hr (List.append_eq_nil_iff.1 h).1
    rw [OfOutline.ranges, hfilled, String.toList_ofList]
    exact mapM_split_joined (List.cons_ne_nil _ _) hranges fun r text h => range_ok position h

/-- The second list gives the values. -/
theorem values_ok {values : List AllowableValue} {pieces : List (List Char)} (first : String)
    (hne : pieces ≠ []) (hvalues : values.mapM AllowableValue.write = .ok pieces) :
    OfOutline.allowableValues [first, String.ofList (ToText.joined [','] pieces)] = .ok values := by
  rw [OfOutline.allowableValues, String.toList_ofList]
  exact mapM_split_joined hne hvalues fun v text h => allowableValue_ok h

/-- The lists give the ranges and the values. -/
theorem lists_ok {d : Declaration} {ranges values : List (List Char)}
    (hranges : d.ranges.mapM Range.write = .ok ranges)
    (hvalues : d.values.mapM AllowableValue.write = .ok values) (position : Source.Position) :
    OfOutline.ranges position ((declarationLists ranges values).map String.ofList) = .ok d.ranges ∧
      OfOutline.allowableValues ((declarationLists ranges values).map String.ofList) =
        .ok d.values := by
  cases values with
  | nil =>
    have hnone : d.values = [] := List.forall₂_nil_right_iff.1 (mapM_eq_ok.1 hvalues)
    cases ranges with
    | nil =>
      have hno : d.ranges = [] := List.forall₂_nil_right_iff.1 (mapM_eq_ok.1 hranges)
      rw [hnone, hno]
      exact ⟨rfl, rfl⟩
    | cons piece pieces =>
      rw [hnone]
      exact ⟨ranges_ok position [] hranges, rfl⟩
  | cons value more =>
    have hlists : declarationLists ranges (value :: more) =
        [ToText.joined [','] ranges, ToText.joined [','] (value :: more)] := by
      simp [declarationLists]
    rw [hlists]
    exact ⟨ranges_ok position _ hranges, values_ok _ (List.cons_ne_nil _ _) hvalues⟩

/-- Every character in the lists of a declaration is plain. -/
theorem isPlain_of_mem_lists {d : Declaration} {ranges values : List (List Char)}
    (hranges : d.ranges.mapM Range.write = .ok ranges)
    (hvalues : d.values.mapM AllowableValue.write = .ok values) :
    ∀ s ∈ declarationLists ranges values, ∀ c ∈ s, Quoted.IsPlain c := by
  have hplainRanges := isPlain_of_mem_joined (forall_mem_of_mapM hranges fun r _ piece h c hc =>
    ((range_ok .origin h).2 c hc).1)
  have hplainValues := isPlain_of_mem_joined (forall_mem_of_mapM hvalues fun v _ piece h c hc =>
    ((allowableValue_ok h).2 c hc).1)
  unfold declarationLists
  split
  · simp
  · refine List.forall_mem_cons.2 ⟨hplainRanges, ?_⟩
    split
    · simp
    · exact List.forall_mem_cons.2 ⟨hplainValues, by simp⟩

theorem kind_of_forall₂ {α : Type} {kind : Terminal} (lexeme : α → List Char) {tokens : List Token}
    {items : List α}
    (h : List.Forall₂ (fun (token : Token) a => token.Is kind (lexeme a)) tokens items) :
    ∀ token ∈ tokens, token.kind = kind := by
  induction h with
  | nil => simp
  | cons hfirst _ ih => exact List.forall_mem_cons.2 ⟨hfirst.kind, ih⟩

/-- The details of a declaration are its words and its lists. -/
theorem details_ok {words lists : List (List Char)} {named quoted : List Token}
    (hnamed : List.Forall₂ (fun (token : Token) w => token.Is .identifier w) named words)
    (hquoted : List.Forall₂
      (fun (token : Token) s => token.Is .string ('"' :: (s ++ [('"' : Char)]))) quoted lists) :
    (named ++ quoted).filter (·.kind == .string) = quoted ∧
      (named ++ quoted).filter (·.kind != .string) = named := by
  have hnames := kind_of_forall₂ (fun w => w) hnamed
  have hstrings := kind_of_forall₂ (fun s => '"' :: (s ++ [('"' : Char)])) hquoted
  constructor
  · rw [List.filter_append, List.filter_eq_nil_iff.2 fun t ht => by simp [hnames t ht],
      List.filter_eq_self.2 fun t ht => by simp [hstrings t ht], List.nil_append]
  · rw [List.filter_append, List.filter_eq_self.2 fun t ht => by simp [hnames t ht],
      List.filter_eq_nil_iff.2 fun t ht => by simp [hstrings t ht], List.append_nil]

/-- The tokens of plain lists give the lists. -/
theorem strings_ok {lists : List (List Char)} {quoted : List Token}
    (hplain : ∀ s ∈ lists, ∀ c ∈ s, Quoted.IsPlain c)
    (h : List.Forall₂ (fun (token : Token) s => token.Is .string ('"' :: (s ++ [('"' : Char)])))
      quoted lists) : quoted.mapM OfOutline.string = .ok (lists.map String.ofList) := by
  rw [mapM_eq_ok, List.forall₂_map_right_iff]
  induction h with
  | nil => exact .nil
  | @cons token s tokens lists hfirst _ ih =>
    obtain ⟨hs, hrest⟩ := List.forall_mem_cons.1 hplain
    refine .cons ?_ (ih hrest)
    simp only [OfOutline.string, hfirst.text, Quoted.decode?_plain hs]

/-- The tokens of a declaration give it back, reread. -/
theorem declaration_ok {d : Declaration} {ranges values : List (List Char)} {name : Token}
    {named quoted : List Token} (hranges : d.ranges.mapM Range.write = .ok ranges)
    (hvalues : d.values.mapM AllowableValue.write = .ok values)
    (hname : name.Is .identifier d.name.toList)
    (hnamed : List.Forall₂ (fun (token : Token) w => token.Is .identifier w) named
      (declarationWords d))
    (hquoted : List.Forall₂
      (fun (token : Token) s => token.Is .string ('"' :: (s ++ [('"' : Char)]))) quoted
      (declarationLists ranges values)) :
    OfOutline.declaration ⟨name, named ++ quoted⟩ = .ok d.reread := by
  have hfilter := details_ok hnamed hquoted
  obtain ⟨hallowed, hdiscrete⟩ := lists_ok hranges hvalues name.position
  have hword : OfOutline.word name = d.name := by
    rw [OfOutline.word, hname.text, String.ofList_toList]
  rw [OfOutline.declaration]
  simp only [hfilter.1, hfilter.2, strings_ok (isPlain_of_mem_lists hranges hvalues) hquoted,
    typing_ok d d.name hnamed, hallowed, hdiscrete, hword, Bind.bind, Except.bind]
  have hreread : d.reread.name = d.name ∧ d.reread.ranges = d.ranges ∧
      d.reread.values = d.values := by
    unfold Declaration.reread
    split <;> exact ⟨rfl, rfl, rfl⟩
  rw [← hreread.1, ← hreread.2.1, ← hreread.2.2]
  rfl

/-- The line of a name, its words and its lists. -/
theorem readsLine_named {name : List Char} {words lists : List (List Char)} {block : Source.Block}
    (hname : isIdentifier name = true) (hwords : ∀ w ∈ words, isIdentifier w = true)
    (hlists : ∀ s ∈ lists, Quoted.IsBody s) (hcounts : words.length ≤ 2 ∧ lists.length ≤ 2)
    (hplace : place.Opens .identifier) (hkinds : ∀ k ∈ Lexes.worded, k ∉ Level.sought place.levels)
    (hregion : place.region = .declarations block) :
    ReadsLine place (name ++ ((words.map ((' ' : Char) :: ·)).flatten ++
        ((lists.map fun s => (' ' : Char) :: ('"' : Char) :: (s ++ [('"' : Char)])).flatten ++
          [('\n' : Char)]))) rest
      { region := .declarations block, tail := .declaration } fun line =>
        ∃ token named quoted, line = .declaration ⟨token, named ++ quoted⟩ ∧
          token.Is .identifier name ∧
          List.Forall₂ (fun (token : Token) w => token.Is .identifier w) named words ∧
          List.Forall₂ (fun (token : Token) s => token.Is .string ('"' :: (s ++ [('"' : Char)])))
            quoted lists := by
  have hends : Terminal.endsWord ((words.map ((' ' : Char) :: ·)).flatten ++
      ((lists.map fun s => (' ' : Char) :: ('"' : Char) :: (s ++ [('"' : Char)])).flatten ++
        ('\n' : Char) :: rest)) = true := by
    cases words with
    | cons w words => rfl
    | nil => cases lists <;> rfl
  have hlexes := Lexes.plain hplace.1 hname hends hkinds
  have hfront : name ≠ [] ∧ ∀ more, nextLine (name ++ more) = name ++ more :=
    nextLine_identifier hname
  refine readsLine_of_lexes (fun h => hfront.1 (List.append_eq_nil_iff.1 h).1)
    (by simpa using hfront.2 _) (by simpa using hlexes) hplace.2 fun token c htoken hc => ?_
  simp only [Source.Line.readFrom, htoken.kind, Source.Line.readNamed, hregion]
  refine (readDeclaration_ok hcounts.1 hcounts.2 hwords hlists hc).bind ?_
  rintro ⟨tokens, c⟩ ⟨named, quoted, heq, hnamed, hquoted, hc⟩
  cases heq
  exact .ok ⟨⟨token, named, quoted, rfl, htoken, hnamed, hquoted⟩, rfl, hc⟩

/-- The line of a declaration. -/
theorem readsLine_declaration {d : Declaration} {block : Source.Block} (hvalid : d.Valid)
    (hplace : place.Opens .identifier) (hkinds : ∀ k ∈ Lexes.worded, k ∉ Level.sought place.levels)
    (hregion : place.region = .declarations block) (hwrite : d.write = .ok text) :
    ReadsLine place text rest { region := .declarations block, tail := .declaration } fun line =>
      ∃ item, line = .declaration item ∧ OfOutline.declaration item = .ok d.reread := by
  obtain ⟨ranges, values, hranges, hvalues, rfl⟩ := declaration_write hwrite
  have hwords : ∀ w ∈ declarationWords d, isIdentifier w = true := by
    intro w hw
    rcases List.mem_append.1 hw with hw | hw
    · obtain ⟨type, -, rfl⟩ := Option.map_eq_some_iff.1 (Option.mem_toList.1 hw)
      cases type <;> decide
    · obtain ⟨name, hname, rfl⟩ := Option.map_eq_some_iff.1 (Option.mem_toList.1 hw)
      exact hvalid.enumName name hname
  have hcounts : (declarationWords d).length ≤ 2 ∧ (declarationLists ranges values).length ≤ 2 := by
    constructor
    · unfold declarationWords
      cases d.type <;> cases d.enumName <;> simp
    · unfold declarationLists
      split
      · simp
      · split <;> simp
  refine (readsLine_named hvalid.name hwords (fun s hs => Quoted.isBody_of_plain
    (isPlain_of_mem_lists hranges hvalues s hs)) hcounts hplace hkinds hregion).mono ?_
  rintro _ ⟨token, named, quoted, rfl, htoken, hnamed, hquoted⟩
  exact ⟨_, rfl, declaration_ok hranges hvalues htoken hnamed hquoted⟩

end ReadBack

end CommandSequence
