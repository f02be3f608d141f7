import CommandSequence.Proofs.Character
import CommandSequence.Proofs.Number.Written
import CommandSequence.Proofs.Source.Cutting
import CommandSequence.Proofs.Text.Quoted
import Mathlib.Data.List.TakeWhile

/-!
# Written tokens

Every form of token that is written is found again at the front of a text, after blanks and whatever
other kinds are looked for (`Lexes`). Most forms begin like no kind that is tried before their own.
Fixed texts differ from each other; a number is told from a hexadecimal literal by its second
character; an identifier alone has rivals that depend on the place, the words and the time tags.
-/

namespace CommandSequence.Source

open Character

/-- The front of a text, after blanks, is a token among the kinds looked for. -/
def Lexes (kinds : List Terminal) (text : List Char) (kind : Terminal)
    (lexeme left : List Char) : Prop :=
  Cursor.firstCut? kinds (text.dropWhile Terminal.isBlank) = some (kind, lexeme, left)

/-- The text begins with a token, whatever kinds are looked for besides its own. -/
structure Begins (text : List Char) (kind : Terminal) (lexeme left : List Char) : Prop where
  cut : kind.cut? text = some (lexeme, left)
  rivals : ∀ rival ∈ Terminal.rivals kind, rival.cut? text = none

namespace Lexes

open Terminal

variable {kinds : List Terminal} {kind : Terminal} {text lexeme left : List Char}

theorem blank (h : Lexes kinds text kind lexeme left) :
    Lexes kinds (' ' :: text) kind lexeme left :=
  h

theorem blanks {ws : List Char} (hws : ∀ c ∈ ws, Terminal.isBlank c = true)
    (h : Lexes kinds text kind lexeme left) : Lexes kinds (ws ++ text) kind lexeme left := by
  unfold Lexes at h ⊢
  rwa [List.dropWhile_append_of_pos hws]

theorem lead {ws : List Char} (hws : ws = [] ∨ ws = [(' ' : Char)])
    (h : Lexes kinds text kind lexeme left) : Lexes kinds (ws ++ text) kind lexeme left := by
  rcases hws with rfl | rfl
  · exact h
  · exact h.blank

theorem mem (h : Lexes kinds text kind lexeme left) : kind ∈ kinds :=
  (Cursor.of_firstCut? h).1

theorem length_le (h : Lexes kinds text kind lexeme left) : left.length ≤ text.length := by
  have happend := append_of_cut? (Cursor.of_firstCut? h).2.1
  have hdrop := (List.dropWhile_suffix Terminal.isBlank (l := text)).length_le
  rw [happend, List.length_append] at hdrop
  omega

/-- A token is found if it is looked for and no kind that is tried before it has a token. -/
theorem of_cut? (hkind : kind ∈ kinds) (hcut : kind.cut? text = some (lexeme, left))
    (hrivals : ∀ k ∈ rivals kind, k ∈ kinds → k.cut? text = none) :
    Lexes kinds text kind lexeme left := by
  obtain ⟨c, rest, rfl, hc⟩ := starts_of_cut? hcut
  have hblank : Terminal.isBlank c = false := by
    cases h : Terminal.isBlank c with
    | false => rfl
    | true => rw [not_starts_of_isBlank h] at hc; cases hc
  unfold Lexes
  rw [List.dropWhile_cons_of_neg (by rw [hblank]; exact Bool.false_ne_true)]
  exact Cursor.firstCut?_eq hkind hcut hrivals

end Lexes

namespace Begins

open Terminal

variable {kinds : List Terminal} {kind : Terminal} {text lexeme left rest : List Char}

theorem lexes (h : Begins text kind lexeme left) (hkind : kind ∈ kinds) :
    Lexes kinds text kind lexeme left :=
  Lexes.of_cut? hkind h.cut fun k hk _ => h.rivals k hk

/-- A text begins with a token if no kind that is tried before its own begins like it. -/
theorem of_starts {c : Char} {more : List Char} (hcut : kind.cut? (c :: more) = some (lexeme, left))
    (hrivals : ∀ k ∈ Terminal.rivals kind, k.starts c = false) :
    Begins (c :: more) kind lexeme left :=
  ⟨hcut, fun k hk => cut?_eq_none_of_starts (hrivals k hk)⟩

/-- The end of a line. -/
theorem newline (rest : List Char) :
    Begins ('\n' :: rest) .newline (cutLineEnds false ('\n' :: rest)).1
      (cutLineEnds false rest).2 :=
  of_starts rfl (by decide)

/-- A quoted string. -/
theorem string (s rest : List Char) :
    Begins (Quoted.encode s ++ rest) .string (Quoted.encode s) rest :=
  of_starts (Quoted.cutString?_encode s rest) (by decide)

/-- Whatever is between quotes. -/
theorem quoted {s : List Char} (hs : Quoted.IsBody s) (rest : List Char) :
    Begins (('"' : Char) :: (s ++ ('"' : Char) :: rest)) .string
      (('"' : Char) :: (s ++ [('"' : Char)])) rest := by
  refine of_starts ?_ (by decide)
  simp only [cut?, cutString?, hs rest, Option.map_some]

/-- A description. -/
theorem description {s : List Char} (hs : ∀ c ∈ s, inComment c = true) (rest : List Char) :
    Begins (('#' : Char) :: (s ++ ('\n' : Char) :: rest)) .description (('#' : Char) :: s)
      (('\n' : Char) :: rest) := by
  have hstop : ∀ c, (('\n' : Char) :: rest).head? = some c → inComment c = false := by
    rintro c h; cases h; rfl
  refine of_starts ?_ (by decide)
  simp only [cut?, cutDescription?, takeWhile_run hs hstop, dropWhile_run hs hstop]

theorem beq_eq_false_of_isAsciiDigit {c d : Char} (hc : isAsciiDigit c = true)
    (hd : isAsciiDigit d = false) : (c == d) = false := by
  rw [beq_eq_false_iff_ne]
  rintro rfl
  rw [hc] at hd
  cases hd

/-- Nothing that is tried before numbers begins with a digit, apart from hexadecimal literals. -/
theorem starts_of_mem_rivals_number {c : Char} (hc : isAsciiDigit c = true) :
    ∀ k ∈ Terminal.rivals .number, k = .hex ∨ k.starts c = false := by
  have hrivals : Terminal.rivals .number = [.hex, .absoluteTime, .commandComplete, .commandRelative,
    .epochRelative, .groundEpoch, .boolean, .null] := rfl
  have hne (d : Char) (hd : isAsciiDigit d = false) : (c == d) = false :=
    beq_eq_false_of_isAsciiDigit hc hd
  simp only [hrivals, List.forall_mem_cons, starts, hne 'A' rfl, hne 'C' rfl, hne 'R' rfl,
    hne 'E' rfl, hne 'G' rfl, hne 't' rfl, hne 'f' rfl, hne 'n' rfl]
  simp

/-- No number begins like a hexadecimal literal. -/
theorem cutHex?_text {s : Spelling} (hs : s.Proper) (hrest : EndsNumber rest) :
    cutHex? (s.text ++ rest) = none := by
  have hmarked (more : List Char) (hmore : ∀ c, more.head? = some c → c ≠ 'x' ∧ c ≠ 'X') :
      cutHex? ('0' :: more) = none := by
    cases more with
    | nil => rfl
    | cons c more =>
      obtain ⟨hx, hX⟩ := hmore c rfl
      simp [cutHex?, hx, hX]
  obtain ⟨d, digits, hwhole⟩ := List.exists_cons_of_ne_nil hs.whole.ne_nil
  by_cases hzero : s.negative = false ∧ d = '0'
  · obtain ⟨hsign, rfl⟩ := hzero
    have hone : s.whole = [('0' : Char)] := hs.whole.leading (by rw [hwhole]; rfl)
    rw [Spelling.text, Spelling.sign, hsign, hone]
    simp only [Bool.false_eq_true, if_false, List.nil_append, List.cons_append, List.append_assoc]
    refine hmarked _ fun c hc => ?_
    unfold Spelling.pointed Spelling.marked at hc
    split at hc
    · split at hc
      · have hc := (hrest c hc).1
        constructor
        · rintro rfl; cases hc
        · rintro rfl; cases hc
      · next mark _ _ =>
        cases hc
        rcases mark.letter_eq with h | h <;> rw [h] <;> decide
    · cases hc; decide
  · rw [Spelling.text, Spelling.sign, hwhole]
    split
    · rfl
    · next hsign =>
      have hd : d ≠ '0' := fun h => hzero ⟨Bool.eq_false_iff.2 hsign, h⟩
      simp only [List.nil_append, List.cons_append, List.append_assoc]
      unfold cutHex?
      split
      · next heq => exact absurd (List.cons.inj heq).1 hd
      · rfl

/-- A number. -/
theorem number {s : Spelling} (hs : s.Proper) (hrest : EndsNumber rest) :
    Begins (s.text ++ rest) .number s.text rest := by
  refine ⟨Spelling.cut?_text hs hrest, fun k hk => ?_⟩
  by_cases hhex : k = .hex
  · rw [hhex]
    exact cutHex?_text hs hrest
  · obtain ⟨d, digits, hwhole⟩ := List.exists_cons_of_ne_nil hs.whole.ne_nil
    have hd : isAsciiDigit d = true :=
      hs.whole.digit d (by rw [hwhole]; exact List.mem_cons_self ..)
    rw [Spelling.text, Spelling.sign, hwhole]
    split
    · have hminus : ∀ k ∈ Terminal.rivals .number, k.starts '-' = false := by decide
      exact cut?_eq_none_of_starts (hminus k hk)
    · exact cut?_eq_none_of_starts ((starts_of_mem_rivals_number hd k hk).resolve_left hhex)

theorem endsWord_of_endsNumber (h : EndsNumber rest) : endsWord rest = true := by
  cases rest with
  | nil => rfl
  | cons c rest => simp [endsWord, (h c rfl).1]

/-- A hexadecimal literal. -/
theorem hex {s : List Char} (hs : isHexLiteral s = true) (hrest : EndsNumber rest) :
    Begins (s ++ rest) .hex s rest := by
  unfold isHexLiteral at hs
  split at hs
  · next x digits =>
    simp only [Bool.and_eq_true, List.all_eq_true] at hs
    obtain ⟨⟨hmark, hfilled⟩, hdigits⟩ := hs
    have hstop : ∀ c, rest.head? = some c → (hexValue? c).isSome = false := by
      intro c hc
      have hword := (hrest c hc).1
      cases hvalue : (hexValue? c).isSome with
      | false => rfl
      | true => rw [isWord_of_hexValue? hvalue] at hword; cases hword
    have htake := takeWhile_run (p := fun c => (hexValue? c).isSome) hdigits hstop
    have hdrop := dropWhile_run (p := fun c => (hexValue? c).isSome) hdigits hstop
    change Begins ('0' :: x :: (digits ++ rest)) .hex ('0' :: x :: digits) rest
    refine of_starts ?_ (by decide)
    simp only [cut?, cutHex?, htake, hdrop, endsWord_of_endsNumber hrest, hfilled, hmark]
    rfl
  · cases hs

/-- A given word among words, before something else. -/
theorem cutWord?_append {word rest : List Char} (hrest : endsWord rest = true) :
    cutWord? word (word ++ rest) = some (word, rest) := by
  rw [cutWord?_eq_some]
  refine ⟨?_, hrest⟩
  simp [cutLiteral?]

/-- A truth value. -/
theorem boolean (b : Bool) (hrest : EndsNumber rest) :
    Begins (ToText.boolean b ++ rest) .boolean (ToText.boolean b) rest := by
  have hends := endsWord_of_endsNumber hrest
  cases b with
  | true =>
    change Begins (('t' : Char) :: ([('r' : Char), 'u', 'e'] ++ rest)) .boolean _ rest
    refine of_starts ?_ (by decide)
    have hcut : cutWord? (String.toList "true") (String.toList "true" ++ rest) =
        some (String.toList "true", rest) :=
      cutWord?_append hends
    exact (congrArg (Option.or · _) hcut).trans rfl
  | false =>
    change Begins (('f' : Char) :: ([('a' : Char), 'l', 's', 'e'] ++ rest)) .boolean _ rest
    refine of_starts ?_ (by decide)
    have hnone : cutWord? (String.toList "true") (String.toList "false" ++ rest) = none := by
      simp [cutWord?, cutLiteral?, List.isPrefixOf]
    have hcut : cutWord? (String.toList "false") (String.toList "false" ++ rest) =
        some (String.toList "false", rest) :=
      cutWord?_append hends
    exact (congrArg (Option.or · _) hnone).trans hcut

/-- The word for nothing. -/
theorem null (hrest : EndsNumber rest) :
    Begins (String.toList "null" ++ rest) .null (String.toList "null") rest :=
  of_starts (cutWord?_append (endsWord_of_endsNumber hrest)) (by decide)

/-! ## Fixed texts -/

/-- Whether two texts differ before either of them ends. -/
def differ : List Char → List Char → Bool
  | c :: text, d :: other => c != d || differ text other
  | _, _ => false

theorem cutLiteral?_of_differ {word other : List Char} (h : differ word other = true)
    (rest : List Char) : cutLiteral? word (other ++ rest) = none := by
  have hprefix : word.isPrefixOf (other ++ rest) = false := by
    fun_induction differ word other with
    | case1 c text d other ih =>
      simp only [Bool.or_eq_true, bne_iff_ne] at h
      rw [List.cons_append, List.isPrefixOf_cons_cons]
      rcases h with h | h
      · rw [beq_eq_false_iff_ne.2 h, Bool.false_and]
      · rw [ih h, Bool.and_false]
    | case2 => cases h
  rw [cutLiteral?, hprefix]
  rfl

/-- Whether the fixed text of a kind cannot be mistaken for another kind: that has a fixed text
which differs, or begins otherwise. Only `@LOAD_AND_GO` begins with the whole of another fixed
text. -/
def distinguishes (kind rival : Terminal) : Bool :=
  match kind.literal?, rival.literal? with
  | some s, some word => differ word.toList s.toList || (kind == .load && rival == .loadAndGo)
  | some s, none => s.toList.head?.all fun c => !rival.starts c
  | none, _ => true

theorem distinguishes_of_mem_rivals :
    ∀ kind ∈ all, ∀ rival ∈ Terminal.rivals kind, distinguishes kind rival = true := by
  decide +kernel

theorem mem_all_of_literal {s : String} (h : kind.literal? = some s) : kind ∈ all := by
  cases kind
  all_goals first | cases h; done | decide

/-- A fixed text. The keyword that another one begins with must be followed by a parenthesis. -/
theorem literal {s : String} (hs : kind.literal? = some s) (rest : List Char)
    (hload : kind = .load → rest.head? = some ('(' : Char)) :
    Begins (s.toList ++ rest) kind s.toList rest := by
  refine ⟨by rw [cut?_of_literal hs]; simp [cutLiteral?], fun k hk => ?_⟩
  have hdistinct := distinguishes_of_mem_rivals kind (mem_all_of_literal hs) k hk
  obtain ⟨c, more, hcons⟩ := toList_literal? hs
  cases hword : k.literal? with
  | some word =>
    simp only [distinguishes, hs, hword, Bool.or_eq_true, Bool.and_eq_true, beq_iff_eq] at hdistinct
    rw [cut?_of_literal hword]
    rcases hdistinct with hdiffer | ⟨rfl, rfl⟩
    · exact cutLiteral?_of_differ hdiffer rest
    · cases hs
      cases hword
      cases rest with
      | nil => cases hload rfl
      | cons d more =>
        cases hload rfl
        rfl
  | none =>
    simp only [distinguishes, hs, hword, hcons, List.head?_cons, Option.all_some] at hdistinct
    rw [hcons]
    exact cut?_eq_none_of_starts (by simpa using hdistinct)

/-- A punctuation mark. -/
theorem mark (kind : Terminal) {c : Char} (h : kind.literal?.map String.toList = some [c])
    (rest : List Char) : Begins (c :: rest) kind [c] rest := by
  obtain ⟨s, hs, hc⟩ := Option.map_eq_some_iff.1 h
  have hload : kind = .load → rest.head? = some ('(' : Char) := by
    rintro rfl
    cases hs
    cases hc
  have hbegins := literal hs rest hload
  rwa [hc] at hbegins

end Begins

/-! ## Time tags -/

namespace Terminal

variable {kind : Terminal} {letter : Char} {text body lexeme left rest : List Char}

/-- The letter of a kind of time tags. -/
def tagLetter? : Terminal → Option Char
  | .absoluteTime => some 'A'
  | .commandComplete => some 'C'
  | .commandRelative => some 'R'
  | .epochRelative => some 'E'
  | .groundEpoch => some 'G'
  | _ => none

/-- The signs that may stand after the letter. -/
def tagSign : Terminal → Char → Bool
  | .epochRelative | .groundEpoch => isSign
  | _ => fun _ => false

/-- The characters that may stand in a time tag. -/
def tagInner : Terminal → Char → Bool
  | .absoluteTime => isTimestamp
  | .commandRelative | .epochRelative | .groundEpoch => isClock
  | _ => fun _ => false

/-- Whether a text can stand after the letter: nothing, or a digit, after a sign where there may be
one, and further characters of the kind. -/
def isTagBody (kind : Terminal) : List Char → Bool
  | [] => true
  | c :: more =>
    if kind.tagSign c && beginsWithDigit more then more.all kind.tagInner
    else isAsciiDigit c && (c :: more).all kind.tagInner

theorem cut?_of_tagLetter (h : kind.tagLetter? = some letter) (text : List Char) :
    kind.cut? text = cutTag? letter kind.tagSign kind.tagInner text := by
  cases kind
  all_goals first | cases h; rfl | cases h

/-- Blanks and the line end have no part in a time tag. -/
theorem not_tag_of_space (kind : Terminal) {c : Char} (h : c ∈ [(' ' : Char), '\t', '\n']) :
    kind.tagInner c = false ∧ kind.tagSign c = false ∧ isAsciiDigit c = false := by
  simp only [List.mem_cons, List.not_mem_nil, or_false] at h
  rcases h with rfl | rfl | rfl
  all_goals cases kind <;> exact ⟨rfl, rfl, rfl⟩

/-- A body is cut up to a blank or the line end. -/
theorem cutTagBody_append (h : kind.isTagBody body = true)
    (hrest : ∀ c, rest.head? = some c → c ∈ [(' ' : Char), '\t', '\n']) :
    cutTagBody kind.tagSign kind.tagInner (body ++ rest) = (body, rest) := by
  have hstop : ∀ c, rest.head? = some c → kind.tagInner c = false :=
    fun c hc => (not_tag_of_space kind (hrest c hc)).1
  cases body with
  | nil =>
    cases rest with
    | nil => rfl
    | cons c rest =>
      obtain ⟨-, hsign, hdigit⟩ := not_tag_of_space kind (hrest c rfl)
      simp [cutTagBody, hsign, hdigit]
  | cons c more =>
    have hbegins : beginsWithDigit (more ++ rest) = beginsWithDigit more := by
      cases more with
      | cons d more => rfl
      | nil =>
        cases rest with
        | nil => rfl
        | cons d rest => exact (not_tag_of_space kind (hrest d rfl)).2.2
    simp only [isTagBody] at h
    simp only [List.cons_append, cutTagBody, hbegins]
    split at h
    · next hsigned =>
      rw [List.all_eq_true] at h
      rw [if_pos hsigned, takeWhile_run h hstop, dropWhile_run h hstop]
    · next hsigned =>
      rw [Bool.and_eq_true, List.all_eq_true] at h
      rw [if_neg hsigned, if_pos h.1, ← List.cons_append, takeWhile_run h.2 hstop,
        dropWhile_run h.2 hstop]

theorem tagInner_of_tagSign {c d : Char} (hc : kind.tagSign c = true)
    (hd : isAsciiDigit d = true) : kind.tagInner d = true := by
  cases kind
  all_goals first | cases hc | simp [tagInner, isClock, hd]

theorem tagSign_of_isAsciiDigit {c : Char} (h : isAsciiDigit c = true) :
    kind.tagSign c = false := by
  have hsign : isSign c = false := by
    rw [isSign, Begins.beq_eq_false_of_isAsciiDigit h rfl,
      Begins.beq_eq_false_of_isAsciiDigit h rfl]
    rfl
  cases kind
  all_goals first | exact hsign | rfl

/-- What is cut is a body. -/
theorem isTagBody_of_cutTagBody
    (h : cutTagBody kind.tagSign kind.tagInner text = (body, left)) :
    kind.isTagBody body = true := by
  cases text with
  | nil => cases h; rfl
  | cons c rest =>
    simp only [cutTagBody] at h
    split at h
    · next hsigned =>
      cases h
      simp only [Bool.and_eq_true] at hsigned
      cases rest with
      | nil => cases hsigned.2
      | cons d rest =>
        have hd : kind.tagInner d = true := tagInner_of_tagSign hsigned.1 hsigned.2
        have hdigit : beginsWithDigit ((d :: rest).takeWhile kind.tagInner) = true := by
          rw [List.takeWhile_cons_of_pos hd]
          exact hsigned.2
        simp only [isTagBody, hsigned.1, hdigit, Bool.and_self, if_true]
        exact List.all_takeWhile
    · split at h
      · next hdigit =>
        cases h
        cases hinner : kind.tagInner c with
        | false => rw [List.takeWhile_cons_of_neg (by rw [hinner]; exact Bool.false_ne_true)]; rfl
        | true =>
          have hall := List.all_takeWhile (p := kind.tagInner) (l := c :: rest)
          rw [List.takeWhile_cons_of_pos hinner] at hall ⊢
          simp only [isTagBody, tagSign_of_isAsciiDigit hdigit, Bool.false_and, Bool.false_eq_true,
            if_false, hdigit, hall, Bool.and_self]
      · cases h; rfl

/-- The text of a time tag is the letter of its kind and a body. -/
theorem isTagBody_of_cut? (hletter : kind.tagLetter? = some letter)
    (h : kind.cut? text = some (lexeme, left)) :
    ∃ body, lexeme = letter :: body ∧ kind.isTagBody body = true := by
  rw [cut?_of_tagLetter hletter] at h
  obtain ⟨rest, body, -, hbody, rfl, -⟩ := cutTag?_eq_some h
  exact ⟨body, rfl, isTagBody_of_cutTagBody hbody⟩

end Terminal

namespace Begins

open Terminal

variable {kind : Terminal} {rest : List Char}

theorem starts_tagLetter {letter : Char} (h : kind.tagLetter? = some letter) :
    ∀ k ∈ Terminal.rivals kind, k.starts letter = false := by
  cases kind
  all_goals first | cases h; decide | cases h

/-- A time tag. -/
theorem tag {letter blank : Char} {body : List Char} (hletter : kind.tagLetter? = some letter)
    (hbody : kind.isTagBody body = true) (hblank : Terminal.isBlank blank = true) :
    Begins (letter :: (body ++ blank :: rest)) kind (letter :: body) (blank :: rest) := by
  have hspace : blank ∈ [(' ' : Char), '\t', '\n'] := by
    simp only [Terminal.isBlank, Bool.or_eq_true, beq_iff_eq] at hblank
    rcases hblank with rfl | rfl <;> decide
  refine of_starts ?_ (starts_tagLetter hletter)
  rw [cut?_of_tagLetter hletter, cutTag?,
    cutTagBody_append hbody fun c hc => by cases hc; exact hspace]
  simp [hblank]

end Begins

/-! ## Identifiers -/

namespace Lexes

open Terminal

variable {kinds : List Terminal} {kind : Terminal} {rest : List Char}

/-- The kinds whose texts can be identifiers too. -/
def worded : List Terminal :=
  [.absoluteTime, .commandComplete, .commandRelative, .epochRelative, .groundEpoch, .boolean, .null]

/-- Any other kind that is tried before identifiers begins otherwise. -/
theorem starts_of_mem_rivals_identifier {c : Char} (hc : isWordStart c = true) :
    ∀ k ∈ rivals .identifier, k ∈ worded ∨ k.starts c = false := by
  have hne (d : Char) (hd : isWordStart d = false) : (c == d) = false := by
    rw [beq_eq_false_iff_ne]
    rintro rfl
    rw [hc] at hd
    cases hd
  have hrivals : rivals .identifier = .hex :: (worded ++ [.number, .string]) := rfl
  intro k hk
  rw [hrivals] at hk
  rcases List.mem_cons.1 hk with rfl | hk
  · exact .inr (hne '0' rfl)
  · rcases List.mem_append.1 hk with hk | hk
    · exact .inl hk
    · simp only [List.mem_cons, List.not_mem_nil, or_false] at hk
      rcases hk with rfl | rfl
      · simp [starts, not_isDigit_of_isWordStart hc, hne '+' rfl, hne '-' rfl, hne '.' rfl]
      · exact .inr (hne '"' rfl)

theorem endsWord_iff : endsWord rest = true ↔ ∀ c, rest.head? = some c → isWord c = false := by
  cases rest with
  | nil => simp [endsWord]
  | cons c rest => simp [endsWord]

/-- An identifier, where no other kind is looked for whose text it is. -/
theorem identifier (hkind : .identifier ∈ kinds) {word : List Char}
    (hword : isIdentifier word = true) (hrest : endsWord rest = true)
    (hrivals : ∀ k ∈ worded, k ∈ kinds → k.cut? (word ++ rest) = none) :
    Lexes kinds (word ++ rest) .identifier word rest := by
  cases word with
  | nil => cases hword
  | cons c more =>
    simp only [isIdentifier, Bool.and_eq_true, List.all_eq_true] at hword
    have hstop := endsWord_iff.1 hrest
    refine of_cut? hkind ?_ fun k hk hmem => ?_
    · simp only [cut?, List.cons_append, cutIdentifier?, hword.1, takeWhile_run hword.2 hstop,
        dropWhile_run hword.2 hstop, if_true]
    · rcases starts_of_mem_rivals_identifier hword.1 k hk with hk | hk
      · exact hrivals k hk hmem
      · exact cut?_eq_none_of_starts hk

/-- Two words at the front of one text, each at its end, are the same. -/
theorem cutWord?_eq_none (word : List Char) {other : List Char}
    (hword : ∀ c ∈ word, isWord c = true)
    (hother : ∀ c ∈ other, isWord c = true) (hrest : endsWord rest = true) (hne : word ≠ other) :
    cutWord? word (other ++ rest) = none := by
  cases hcut : cutWord? word (other ++ rest) with
  | none => rfl
  | some found =>
    obtain ⟨hliteral, hleft⟩ := cutWord?_eq_some.1 hcut
    have htake : (other ++ rest).takeWhile isWord = other :=
      takeWhile_run hother (endsWord_iff.1 hrest)
    rw [(append_of_cutLiteral? hliteral).2, takeWhile_run hword (endsWord_iff.1 hleft)] at htake
    exact absurd htake hne

theorem isWord_of_isIdentifier {word : List Char} (h : isIdentifier word = true) :
    ∀ c ∈ word, isWord c = true := by
  cases word with
  | nil => cases h
  | cons c more =>
    simp only [isIdentifier, Bool.and_eq_true, List.all_eq_true] at h
    exact List.forall_mem_cons.2 ⟨isWord_of_isWordStart h.1, h.2⟩

/-- A word that is no truth value is not taken for one. -/
theorem cut?_boolean_eq_none {word : List Char} (hword : isIdentifier word = true)
    (hrest : endsWord rest = true) (htrue : word ≠ String.toList "true")
    (hfalse : word ≠ String.toList "false") : cut? .boolean (word ++ rest) = none := by
  have hletters := isWord_of_isIdentifier hword
  have hnoTrue := cutWord?_eq_none (String.toList "true") (List.all_eq_true.1 (by decide)) hletters
    hrest htrue.symm
  have hnoFalse := cutWord?_eq_none (String.toList "false") (List.all_eq_true.1 (by decide))
    hletters hrest hfalse.symm
  simp only [cut?, hnoTrue, hnoFalse, Option.or_none]

theorem dropFinalNewline_of_isWord {word : List Char} (h : ∀ c ∈ word, isWord c = true) :
    Number.dropFinalNewline word = word := by
  refine Number.dropFinalNewline_of_notMem fun hmem => ?_
  have hword := h '\n' hmem
  cases hword

/-- The word characters of a time tag are digits and the mark of a clock. -/
theorem digit_or_mark_of_tagInner {c : Char} (hword : isWord c = true)
    (hinner : kind.tagInner c = true) : (isAsciiDigit c || c == 'T') = true := by
  have hclock (h : isClock c = true) : (isAsciiDigit c || c == 'T') = true := by
    simp only [isClock, Bool.or_eq_true, beq_iff_eq] at h
    rcases h with ((h | rfl) | rfl) | rfl
    · rw [h, Bool.true_or]
    · cases hword
    · cases hword
    · rfl
  cases kind
  case absoluteTime =>
    simp only [tagInner, isTimestamp, Bool.or_eq_true, beq_iff_eq] at hinner
    rcases hinner with h | rfl
    · exact hclock h
    · cases hword
  all_goals first | exact hclock hinner | cases hinner

/-- A time tag that a word is cut to takes the whole word. -/
theorem of_cutTagBody_word {word : List Char} {body left : List Char}
    (hword : ∀ c ∈ word, isWord c = true)
    (h : cutTagBody kind.tagSign kind.tagInner (word ++ rest) = (body, left))
    (hblank : left.head?.any Terminal.isBlank = true) :
    word = [] ∨ ∃ c more, word = c :: more ∧ isAsciiDigit c = true ∧
      ∀ x ∈ c :: more, kind.tagInner x = true := by
  have hno {x : Char} (hx : isWord x = true) (hb : Terminal.isBlank x = true) : False := by
    simp only [Terminal.isBlank, Bool.or_eq_true, beq_iff_eq] at hb
    rcases hb with rfl | rfl <;> cases hx
  cases word with
  | nil => exact .inl rfl
  | cons c more =>
    have hc := hword c (List.mem_cons_self ..)
    have hsign : kind.tagSign c = false := by
      have hnot : isSign c = false := by
        cases hs : isSign c with
        | false => rfl
        | true =>
          simp only [isSign, Bool.or_eq_true, beq_iff_eq] at hs
          rcases hs with rfl | rfl <;> cases hc
      cases kind
      all_goals first | exact hnot | rfl
    simp only [List.cons_append, cutTagBody, hsign, Bool.false_and, Bool.false_eq_true,
      if_false] at h
    split at h
    · next hdigit =>
      refine .inr ⟨c, more, rfl, hdigit, ?_⟩
      cases h
      rw [← List.cons_append, List.dropWhile_append] at hblank
      split at hblank
      · next hempty => exact List.dropWhile_eq_nil_iff.1 (List.isEmpty_iff.1 hempty)
      · next hfilled =>
        cases hdrop : (c :: more).dropWhile kind.tagInner with
        | nil => rw [hdrop] at hfilled; exact absurd rfl hfilled
        | cons x xs =>
          rw [hdrop] at hblank
          have hmem : x ∈ c :: more :=
            (List.dropWhile_suffix _).subset (hdrop ▸ List.mem_cons_self ..)
          exact (hno (hword x hmem) hblank).elim
    · cases h
      exact (hno hc hblank).elim

/-- A word that does not read as a time tag is not taken for one. -/
theorem cut?_tag_eq_none {word : List Char} {letter : Char}
    (hletter : kind.tagLetter? = some letter)
    (hword : isIdentifier word = true) (hreads : readsAsTimeTag word = false) :
    kind.cut? (word ++ rest) = none := by
  cases hcut : kind.cut? (word ++ rest) with
  | none => rfl
  | some found =>
    have hletters := isWord_of_isIdentifier hword
    rw [cut?_of_tagLetter hletter] at hcut
    obtain ⟨text, body, htext, hbody, -, hblank⟩ := cutTag?_eq_some hcut
    cases word with
    | nil => cases hword
    | cons l more =>
      obtain ⟨rfl, rfl⟩ := List.cons.inj htext
      have hmore := (List.forall_mem_cons.1 hletters).2
      simp only [readsAsTimeTag, dropFinalNewline_of_isWord hmore] at hreads
      rcases of_cutTagBody_word hmore hbody hblank with rfl | ⟨c, tail, rfl, hdigit, hinner⟩
      · cases kind
        all_goals first | cases hletter; cases hreads | cases hletter
      · have hc := List.forall_mem_cons.1 hinner
        have hall : tail.all (fun c => isAsciiDigit c || c == 'T') = true :=
          List.all_eq_true.2 fun x hx =>
            digit_or_mark_of_tagInner (hmore x (List.mem_cons_of_mem _ hx)) (hc.2 x hx)
        cases kind
        case commandComplete => cases hc.1
        all_goals first | cases hletter; simp [hdigit, hall] at hreads | cases hletter

/-- An identifier, where neither words nor time tags are looked for. -/
theorem plain (hkind : .identifier ∈ kinds) {word : List Char} (hword : isIdentifier word = true)
    (hrest : endsWord rest = true) (hkinds : ∀ k ∈ worded, k ∉ kinds) :
    Lexes kinds (word ++ rest) .identifier word rest :=
  identifier hkind hword hrest fun k hk hmem => absurd hmem (hkinds k hk)

/-- An identifier that is no truth value, where no other words and no time tags are looked for. -/
theorem symbol (hkind : .identifier ∈ kinds) {word : List Char} (hword : isIdentifier word = true)
    (hrest : endsWord rest = true) (htrue : word ≠ String.toList "true")
    (hfalse : word ≠ String.toList "false")
    (hkinds : ∀ k ∈ worded, k = .boolean ∨ k ∉ kinds) :
    Lexes kinds (word ++ rest) .identifier word rest := by
  refine identifier hkind hword hrest fun k hk hmem => ?_
  rcases hkinds k hk with rfl | hno
  · exact cut?_boolean_eq_none hword hrest htrue hfalse
  · exact absurd hmem hno

/-- An identifier that does not read as a time tag, where no words are looked for. -/
theorem stem (hkind : .identifier ∈ kinds) {word : List Char} (hword : isIdentifier word = true)
    (hrest : endsWord rest = true) (hreads : readsAsTimeTag word = false)
    (hkinds : ∀ k ∈ worded, k.tagLetter? = none → k ∉ kinds) :
    Lexes kinds (word ++ rest) .identifier word rest := by
  refine identifier hkind hword hrest fun k hk hmem => ?_
  cases hletter : k.tagLetter? with
  | none => exact absurd hmem (hkinds k hk hletter)
  | some letter => exact cut?_tag_eq_none hletter hword hreads

end Lexes

end CommandSequence.Source
