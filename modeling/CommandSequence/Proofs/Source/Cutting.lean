import CommandSequence.Document.Basic
import CommandSequence.Source.Token
import Mathlib.Data.List.Basic

/-!
# Cutting tokens

A token is the front of the text that it is cut from, and it is not empty but begins as its kind
allows (`fronts_of_cut?`), so its first character tells most kinds apart. A kind is found among
others if and only if it has a token and none of the kinds that are tried before it does
(`firstCut?_eq`, `of_firstCut?`).
-/

namespace CommandSequence.Source

open Character

namespace Terminal

variable {kind : Terminal} {word text lexeme left rest : List Char}

/-! ## Fronts of texts -/

/-- The lexeme is the front of the text, and its first character is of the class. -/
structure Fronts (first : Char → Bool) (text lexeme left : List Char) : Prop where
  append : text = lexeme ++ left
  head : ∃ c more, lexeme = c :: more ∧ first c = true

theorem Fronts.mono {first first' : Char → Bool} (h : Fronts first text lexeme left)
    (himp : ∀ c, first c = true → first' c = true) : Fronts first' text lexeme left :=
  ⟨h.append, h.head.imp fun c ⟨more, heq, hc⟩ => ⟨more, heq, himp c hc⟩⟩

theorem Fronts.of_ne_nil {first : Char → Bool} (happend : text = lexeme ++ left)
    (hne : lexeme ≠ []) (hfirst : ∀ c more, text = c :: more → first c = true) :
    Fronts first text lexeme left := by
  obtain ⟨c, more, rfl⟩ := List.exists_cons_of_ne_nil hne
  exact ⟨happend, c, more, rfl, hfirst c (more ++ left) happend⟩

/-! ## Each way of cutting -/

theorem cut?_of_literal {s : String} (h : kind.literal? = some s) (text : List Char) :
    kind.cut? text = cutLiteral? s.toList text := by
  cases kind
  all_goals first | cases h; rfl | cases h

theorem append_of_cutLiteral? (h : cutLiteral? word text = some (lexeme, left)) :
    lexeme = word ∧ text = word ++ left := by
  unfold cutLiteral? at h
  split at h
  · next hprefix =>
    cases h
    exact ⟨rfl, (List.prefix_iff_eq_append.1 (List.isPrefixOf_iff_prefix.1 hprefix)).symm⟩
  · cases h

theorem cutWord?_eq_some : cutWord? word text = some (lexeme, left) ↔
    cutLiteral? word text = some (lexeme, left) ∧ endsWord left = true := by
  simp [cutWord?, Option.filter_eq_some_iff]

/-- How a time tag is cut: a letter and a body, before a blank. -/
theorem cutTag?_eq_some {letter : Char} {sign inner : Char → Bool}
    (h : cutTag? letter sign inner text = some (lexeme, left)) :
    ∃ rest body, text = letter :: rest ∧ cutTagBody sign inner rest = (body, left) ∧
      lexeme = letter :: body ∧ left.head?.any isBlank = true := by
  cases text with
  | nil => cases h
  | cons c rest =>
    simp only [cutTag?] at h
    split at h
    · next hc =>
      cases h
      simp only [Bool.and_eq_true, beq_iff_eq] at hc
      obtain ⟨rfl, hblank⟩ := hc
      exact ⟨rest, _, rfl, rfl, rfl, hblank⟩
    · cases h

theorem append_of_cutTagBody (sign inner : Char → Bool) (text : List Char) :
    text = (cutTagBody sign inner text).1 ++ (cutTagBody sign inner text).2 := by
  cases text with
  | nil => rfl
  | cons c rest =>
    simp only [cutTagBody]
    split
    · rw [List.cons_append, List.takeWhile_append_dropWhile]
    · split
      · rw [List.takeWhile_append_dropWhile]
      · rfl

/-- How a hexadecimal literal is cut: a run of digits after its mark, at the end of a word. -/
theorem cutHex?_eq_some (h : cutHex? text = some (lexeme, left)) :
    text = lexeme ++ left ∧ isHexLiteral lexeme = true ∧ endsWord left = true := by
  unfold cutHex? at h
  split at h
  · next x rest =>
    simp only at h
    split at h
    · next hx =>
      cases h
      simp only [Bool.and_eq_true, Bool.not_eq_true'] at hx
      obtain ⟨⟨hmark, hfilled⟩, hends⟩ := hx
      refine ⟨by rw [List.cons_append, List.cons_append, List.takeWhile_append_dropWhile],
        ?_, hends⟩
      simp only [isHexLiteral, hmark, hfilled, Bool.not_false, Bool.and_self, Bool.true_and]
      exact List.all_takeWhile
    · cases h
  · cases h

theorem append_of_cutStringTail? (h : cutStringTail? text = some (lexeme, left)) :
    text = lexeme ++ left := by
  fun_induction cutStringTail? text generalizing lexeme with
  | case1 => cases h
  | case2 => cases h
  | case3 => cases h
  | case4 c rest _ ih =>
    obtain ⟨⟨body, more⟩, hbody, heq⟩ := Option.map_eq_some_iff.1 h
    cases heq
    rw [ih hbody, List.cons_append, List.cons_append]
  | case5 c rest _ _ hc => cases h; rw [beq_iff_eq.1 hc]; rfl
  | case6 => cases h
  | case7 c rest _ _ _ _ ih =>
    obtain ⟨⟨body, more⟩, hbody, heq⟩ := Option.map_eq_some_iff.1 h
    cases heq
    rw [ih hbody, List.cons_append]

theorem append_of_cutLineEnds (commented : Bool) (text : List Char) :
    text = (cutLineEnds commented text).1 ++ (cutLineEnds commented text).2 := by
  fun_induction cutLineEnds commented text with
  | case1 => rfl
  | case2 commented rest ends left heq ih => rw [heq] at ih; rw [ih]; rfl
  | case3 commented c rest _ _ ends left heq ih => rw [heq] at ih; rw [ih]; rfl
  | case4 commented c rest _ _ _ ends left heq ih => rw [heq] at ih; rw [ih]; rfl
  | case5 commented c rest _ _ _ _ ends left heq ih => rw [heq] at ih; rw [ih]; rfl
  | case6 commented c rest _ _ _ _ _ ends left heq ih => rw [heq] at ih; rw [ih]; rfl
  | case7 => rfl

/-- How an identifier is cut: a longest word. -/
theorem cutIdentifier?_eq_some (h : cutIdentifier? text = some (lexeme, left)) :
    text = lexeme ++ left ∧ isIdentifier lexeme = true ∧ endsWord left = true := by
  cases text with
  | nil => cases h
  | cons c rest =>
    simp only [cutIdentifier?] at h
    split at h
    · next hc =>
      cases h
      refine ⟨by rw [List.cons_append, List.takeWhile_append_dropWhile], ?_, ?_⟩
      · simp only [isIdentifier, hc, Bool.true_and]
        exact List.all_takeWhile
      · have hhead := List.head?_dropWhile_not isWord rest
        cases hleft : rest.dropWhile isWord with
        | nil => rfl
        | cons d more =>
          rw [hleft] at hhead
          have hd : isWord d = false := hhead
          simp [endsWord, hd]
    · cases h

theorem fronts_of_cutLiteral? {c : Char} (h : cutLiteral? (c :: word) text = some (lexeme, left)) :
    Fronts (· == c) text lexeme left := by
  obtain ⟨rfl, happend⟩ := append_of_cutLiteral? h
  exact ⟨happend, c, word, rfl, beq_self_eq_true c⟩

theorem fronts_of_cutWord? {c : Char} (h : cutWord? (c :: word) text = some (lexeme, left)) :
    Fronts (· == c) text lexeme left :=
  fronts_of_cutLiteral? (cutWord?_eq_some.1 h).1

theorem fronts_of_cutTag? {letter : Char} {sign inner : Char → Bool}
    (h : cutTag? letter sign inner text = some (lexeme, left)) :
    Fronts (· == letter) text lexeme left := by
  obtain ⟨rest, body, rfl, hbody, rfl, -⟩ := cutTag?_eq_some h
  refine ⟨?_, letter, body, rfl, beq_self_eq_true letter⟩
  rw [List.cons_append, append_of_cutTagBody sign inner rest, hbody]

theorem fronts_of_cutHex? (h : cutHex? text = some (lexeme, left)) :
    Fronts (· == '0') text lexeme left := by
  obtain ⟨happend, hhex, -⟩ := cutHex?_eq_some h
  refine ⟨happend, ?_⟩
  unfold isHexLiteral at hhex
  split at hhex
  · exact ⟨_, _, rfl, rfl⟩
  · cases hhex

theorem fronts_of_cutNumeral? (h : Numeral.cut? text = some (lexeme, left)) :
    Fronts (fun c => isDigit c || c == '+' || c == '-' || c == '.') text lexeme left := by
  refine .of_ne_nil (Numeral.append_of_cut? h) (Numeral.ne_nil_of_cut? h) ?_
  rintro c more rfl
  simp only [Numeral.cut?, Numeral.Stage.cut?] at h
  cases hc : isDigit c || c == '+' || c == '-' || c == '.' with
  | true => rfl
  | false =>
    simp only [Bool.or_eq_false_iff] at hc
    simp [Numeral.Stage.next?, Numeral.Stage.isFinal, hc] at h

theorem fronts_of_cutString? (h : cutString? text = some (lexeme, left)) :
    Fronts (· == '"') text lexeme left := by
  unfold cutString? at h
  split at h
  · obtain ⟨⟨body, more⟩, hbody, heq⟩ := Option.map_eq_some_iff.1 h
    cases heq
    exact ⟨by rw [append_of_cutStringTail? hbody, List.cons_append], _, _, rfl, rfl⟩
  · cases h

theorem fronts_of_cutIdentifier? (h : cutIdentifier? text = some (lexeme, left)) :
    Fronts isWordStart text lexeme left := by
  obtain ⟨happend, hword, -⟩ := cutIdentifier?_eq_some h
  refine ⟨happend, ?_⟩
  unfold isIdentifier at hword
  split at hword
  · next c rest => exact ⟨c, rest, rfl, (Bool.and_eq_true_iff.1 hword).1⟩
  · cases hword

theorem fronts_of_cutDescription? (h : cutDescription? text = some (lexeme, left)) :
    Fronts (· == '#') text lexeme left := by
  unfold cutDescription? at h
  split at h
  · cases h
    exact ⟨by rw [List.cons_append, List.takeWhile_append_dropWhile], _, _, rfl, rfl⟩
  · cases h

theorem fronts_of_cutNewline? (h : cutNewline? text = some (lexeme, left)) :
    Fronts (fun c => c == '\n' || c == '\r') text lexeme left := by
  unfold cutNewline? at h
  split at h
  · next hhead =>
    have happend := append_of_cutLineEnds false text
    rw [Option.some.inj h] at happend
    refine ⟨happend, ?_⟩
    rcases Bool.or_eq_true_iff.1 hhead with hhead | hhead
    · obtain ⟨rest, rfl⟩ := List.head?_eq_some_iff.1 (beq_iff_eq.1 hhead)
      cases h
      exact ⟨'\n', _, rfl, rfl⟩
    · obtain ⟨rest, rfl⟩ := List.isPrefixOf_iff_prefix.1 hhead
      cases h
      exact ⟨'\r', _, rfl, rfl⟩
  · cases h

/-! ## Tokens of all kinds -/

/-- Whether the text of a kind can begin with the character. -/
def starts (kind : Terminal) (c : Char) : Bool :=
  match kind with
  | .hex => c == '0'
  | .absoluteTime => c == 'A'
  | .commandComplete => c == 'C'
  | .commandRelative => c == 'R'
  | .epochRelative => c == 'E'
  | .groundEpoch => c == 'G'
  | .boolean => c == 't' || c == 'f'
  | .null => c == 'n'
  | .number => isDigit c || c == '+' || c == '-' || c == '.'
  | .string => c == '"'
  | .identifier => isWordStart c
  | .description => c == '#'
  | .newline => c == '\n' || c == '\r'
  | kind => kind.literal?.any fun word => word.toList.head? == some c

/-- Fixed texts are not empty. -/
theorem toList_literal? {s : String} (h : kind.literal? = some s) :
    ∃ c more, s.toList = c :: more := by
  cases kind
  all_goals first | cases h; exact ⟨_, _, rfl⟩ | cases h

theorem starts_of_literal {s : String} {c : Char} {more : List Char} (h : kind.literal? = some s)
    (hs : s.toList = c :: more) (d : Char) : kind.starts d = (c == d) := by
  have hstarts : kind.starts d = (kind.literal?.any fun word => word.toList.head? == some d) := by
    cases kind
    all_goals first | rfl | cases h
  rw [hstarts, h, Option.any_some, hs, List.head?_cons]
  rfl

/-- A token is the front of its text, and begins as its kind allows. -/
theorem fronts_of_cut? (h : kind.cut? text = some (lexeme, left)) :
    Fronts kind.starts text lexeme left := by
  cases hlit : kind.literal? with
  | some s =>
    obtain ⟨c, more, hs⟩ := toList_literal? hlit
    rw [cut?_of_literal hlit, hs] at h
    refine (fronts_of_cutLiteral? h).mono fun d hd => ?_
    rw [starts_of_literal hlit hs, beq_iff_eq.1 hd, beq_self_eq_true]
  | none =>
    cases kind
    all_goals first | cases hlit; done | skip
    case hex => exact fronts_of_cutHex? h
    case absoluteTime => exact fronts_of_cutTag? h
    case commandComplete => exact fronts_of_cutTag? h
    case commandRelative => exact fronts_of_cutTag? h
    case epochRelative => exact fronts_of_cutTag? h
    case groundEpoch => exact fronts_of_cutTag? h
    case boolean =>
      rcases Option.or_eq_some_iff.1 h with h | ⟨-, h⟩
      · exact (fronts_of_cutWord? h).mono fun c hc => Bool.or_eq_true_iff.2 (.inl hc)
      · exact (fronts_of_cutWord? h).mono fun c hc => Bool.or_eq_true_iff.2 (.inr hc)
    case null => exact fronts_of_cutWord? h
    case number => exact fronts_of_cutNumeral? h
    case string => exact fronts_of_cutString? h
    case identifier => exact fronts_of_cutIdentifier? h
    case description => exact fronts_of_cutDescription? h
    case newline => exact fronts_of_cutNewline? h
    case endOfInput => cases h

/-- Nothing is lost by cutting a token. -/
theorem append_of_cut? (h : kind.cut? text = some (lexeme, left)) : text = lexeme ++ left :=
  (fronts_of_cut? h).append

/-- No token is empty. -/
theorem ne_nil_of_cut? (h : kind.cut? text = some (lexeme, left)) : lexeme ≠ [] := by
  obtain ⟨c, more, rfl, -⟩ := (fronts_of_cut? h).head
  exact List.cons_ne_nil c more

theorem length_lt_of_cut? (h : kind.cut? text = some (lexeme, left)) :
    left.length < text.length := by
  have hlength := List.length_pos_iff.2 (ne_nil_of_cut? h)
  rw [append_of_cut? h, List.length_append]
  omega

/-- A token begins as its kind allows. -/
theorem starts_of_cut? (h : kind.cut? text = some (lexeme, left)) :
    ∃ c rest, text = c :: rest ∧ kind.starts c = true := by
  obtain ⟨happend, c, more, rfl, hc⟩ := fronts_of_cut? h
  exact ⟨c, more ++ left, happend, hc⟩

/-- No token begins with a blank. -/
theorem not_starts_of_isBlank {c : Char} (h : isBlank c = true) : kind.starts c = false := by
  simp only [isBlank, Bool.or_eq_true, beq_iff_eq] at h
  rcases h with rfl | rfl
  · cases kind <;> decide
  · cases kind <;> decide

/-! ## Rivals -/

/-- The kinds that are tried before a kind. -/
def rivals (kind : Terminal) : List Terminal :=
  all.takeWhile (· != kind)

theorem exists_all_eq (h : kind ≠ .endOfInput) : ∃ later, all = rivals kind ++ kind :: later := by
  cases kind
  all_goals first | exact absurd rfl h | exact ⟨_, rfl⟩

/-- Rivals that cannot begin with the first character of a text have no token there. -/
theorem cut?_eq_none_of_starts {c : Char} (h : kind.starts c = false) :
    kind.cut? (c :: rest) = none := by
  cases hcut : kind.cut? (c :: rest) with
  | none => rfl
  | some found =>
    obtain ⟨d, more, heq, hd⟩ := starts_of_cut? hcut
    cases heq
    rw [h] at hd
    cases hd

end Terminal

namespace Cursor

open Terminal

variable {kinds : List Terminal} {kind : Terminal} {text lexeme left : List Char}

/-- A kind is found if it is looked for and no kind that is tried before it has a token. -/
theorem firstCut?_eq (hkind : kind ∈ kinds) (hcut : kind.cut? text = some (lexeme, left))
    (hrivals : ∀ k ∈ rivals kind, k ∈ kinds → k.cut? text = none) :
    firstCut? kinds text = some (kind, lexeme, left) := by
  have hend : kind ≠ .endOfInput := by rintro rfl; cases hcut
  obtain ⟨later, hall⟩ := exists_all_eq hend
  have hnone : (rivals kind).findSome? (fun k =>
      if kinds.contains k then (k.cut? text).map fun cut => (k, cut.1, cut.2)
      else none) = none := by
    refine List.findSome?_eq_none_iff.2 fun k hk => ?_
    split
    · next hmem => rw [hrivals k hk (List.contains_iff_mem.1 hmem)]; rfl
    · rfl
  unfold firstCut?
  rw [hall, List.findSome?_append, hnone, Option.none_or, List.findSome?_cons]
  simp [hkind, hcut]

/-- What is found is looked for, was cut from the text, and has no rival there. -/
theorem of_firstCut? (h : firstCut? kinds text = some (kind, lexeme, left)) :
    kind ∈ kinds ∧ kind.cut? text = some (lexeme, left) ∧
      ∀ k ∈ rivals kind, k ∈ kinds → k.cut? text = none := by
  obtain ⟨before, k, later, hall, hfound, hnone⟩ := List.findSome?_eq_some_iff.1 h
  split at hfound
  · next hmem =>
    obtain ⟨⟨found, more⟩, hcut, heq⟩ := Option.map_eq_some_iff.1 hfound
    cases heq
    refine ⟨List.contains_iff_mem.1 hmem, hcut, fun r hr hmem' => ?_⟩
    have hbefore : r ∈ before := by
      rw [rivals, hall, List.takeWhile_append] at hr
      split at hr
      · simpa using hr
      · exact List.takeWhile_subset _ hr
    have hcut' := hnone r hbefore
    rw [if_pos (List.contains_iff_mem.2 hmem')] at hcut'
    exact Option.map_eq_none_iff.1 hcut'
  · cases hfound

end Cursor

end CommandSequence.Source
