import CommandSequence.Document.ToText
import CommandSequence.Proofs.Document.Canon
import CommandSequence.Proofs.Document.Valid
import CommandSequence.Proofs.Source.Cursor
import CommandSequence.Source.Line

/-!
# Reading arguments and descriptions back

The part of a line after its subject: arguments, each after a blank, and a description or none, at
the end of the line. A token of an argument is found again wherever arguments may stand
(`lexes_argument`), a group up to its bracket (`readGroup_ok`), all arguments up to the token that
ends them (`readArguments_ok`), and so the whole trailer of a line (`readTrailer_ok`).
-/

namespace CommandSequence.ReadBack

open OfOutline (nonEmpty)
open Source (Terminal Token Cursor Level Lexes Begins nextLine)
open Source.Line (argumentKinds endings argumentLevel itemLevel afterArgument readGroup
  readArguments readEnding readTrailer readDescription)

variable {c : Cursor} {rest : List Char}

/-! ## Single arguments -/

/-- Where arguments may stand, their kinds are looked for and no other words. -/
def ForArguments (kinds : List Terminal) : Prop :=
  (∀ k ∈ argumentKinds, k ∈ kinds) ∧ ∀ k ∈ Lexes.worded, k = .boolean ∨ k ∉ kinds

/-- The text of an argument is one token, which gives the argument back without its name. -/
theorem lexes_argument {a : BaseArgument} {text : List Char} (ha : a.Valid)
    (hwrite : a.write = .ok text) (hrest : EndsNumber rest) :
    ∃ kind ∈ argumentKinds,
      (∀ kinds, ForArguments kinds → Lexes kinds (text ++ rest) kind text rest) ∧
      ∀ token : Token, token.Is kind text → OfOutline.baseArgument token = .ok a.unnamed := by
  cases a with
  | string s name =>
    cases hwrite
    refine ⟨.string, by decide, fun kinds hkinds => ?_, fun token htoken => ?_⟩
    · exact (Begins.string s.toList rest).lexes (hkinds.1 _ (by decide))
    · rw [OfOutline.baseArgument]
      simp only [htoken.kind, OfOutline.string_of_is htoken]
      rfl
  | number n name =>
    obtain ⟨s, htext, hs, hread⟩ := Number.exists_spelling hwrite
    refine ⟨.number, by decide, fun kinds hkinds => ?_, fun token htoken => ?_⟩
    · rw [← htext]
      exact (Begins.number hs hrest).lexes (hkinds.1 _ (by decide))
    · have hnumber : OfOutline.number token = .ok n := by
        rw [OfOutline.number, OfOutline.number?, htoken.text, hread]
        rfl
      rw [OfOutline.baseArgument]
      simp only [htoken.kind, hnumber, Bind.bind, Except.bind, ha.1]
      rfl
  | boolean b name =>
    cases hwrite
    refine ⟨.boolean, by decide, fun kinds hkinds => ?_, fun token htoken => ?_⟩
    · exact (Begins.boolean b hrest).lexes (hkinds.1 _ (by decide))
    · rw [OfOutline.baseArgument]
      simp only [htoken.kind, OfOutline.boolean, htoken.text]
      cases b <;> rfl
  | symbol s name =>
    cases hwrite
    obtain ⟨hword, htruth⟩ := ha
    have hne : s ≠ "true" ∧ s ≠ "false" := by
      simpa [truthWords] using htruth
    refine ⟨.identifier, by decide, fun kinds hkinds => ?_, fun token htoken => ?_⟩
    · refine Lexes.symbol (hkinds.1 _ (by decide)) hword (Begins.endsWord_of_endsNumber hrest)
        ?_ ?_ hkinds.2
      · exact fun h => hne.1 (String.toList_inj.1 h)
      · exact fun h => hne.2 (String.toList_inj.1 h)
    · rw [OfOutline.baseArgument]
      simp only [htoken.kind, OfOutline.word, htoken.text, String.ofList_toList]
      rfl
  | hex s name =>
    cases hwrite
    refine ⟨.hex, by decide, fun kinds hkinds => ?_, fun token htoken => ?_⟩
    · exact (Begins.hex ha hrest).lexes (hkinds.1 _ (by decide))
    · rw [OfOutline.baseArgument]
      simp only [htoken.kind, OfOutline.word, htoken.text, String.ofList_toList]
      rfl

/-! ## Groups -/

/-- The levels of a place in a line admit arguments. -/
def AdmitsArguments (levels : List Level) : Prop :=
  ForArguments (Level.sought levels) ∧ ∀ kind ∈ argumentKinds, Level.refusing? levels kind = none

theorem admitsArguments_item : AdmitsArguments [itemLevel] :=
  ⟨⟨by decide, by decide⟩, by decide⟩

theorem admitsArguments_afterItem : AdmitsArguments [afterArgument, itemLevel] :=
  ⟨⟨by decide, by decide⟩, by decide⟩

theorem admitsArguments_argument : AdmitsArguments [argumentLevel] :=
  ⟨⟨by decide, by decide⟩, by decide⟩

theorem admitsArguments_afterArgument : AdmitsArguments [afterArgument, argumentLevel] :=
  ⟨⟨by decide, by decide⟩, by decide⟩

theorem joined_nil (separator : List Char) : ToText.joined separator [] = [] :=
  rfl

theorem joined_cons (separator piece : List Char) (pieces : List (List Char)) :
    ToText.joined separator (piece :: pieces) =
      piece ++ if pieces.isEmpty then [] else separator ++ ToText.joined separator pieces := by
  cases pieces with
  | nil => simp [ToText.joined, List.intercalate]
  | cons next more => simp [ToText.joined, List.intercalate]

/-- After the first item a blank and the other items follow, or the bracket. -/
theorem exists_separator (text : List Char) (texts : List (List Char)) (rest : List Char) :
    ∃ ws, (ws = [] ∨ ws = [(' ' : Char)]) ∧
      ToText.joined [' '] (text :: texts) ++ (']' : Char) :: rest =
        text ++ (ws ++ (ToText.joined [' '] texts ++ (']' : Char) :: rest)) ∧
      EndsNumber (ws ++ (ToText.joined [' '] texts ++ (']' : Char) :: rest)) := by
  rw [joined_cons]
  cases texts with
  | nil =>
    exact ⟨[], .inl rfl, by simp [joined_nil],
      endsNumber_cons (by decide) (by decide) (by decide)⟩
  | cons next texts =>
    exact ⟨[' '], .inr rfl, by simp, endsNumber_cons (by decide) (by decide) (by decide)⟩

/-- The items of a group are read back, up to its bracket. -/
theorem readGroup_ok {items : List BaseArgument} {texts : List (List Char)} {ws : List Char}
    {levels : List Level} (fuel : Nat) (hitems : ∀ a ∈ items, a.Valid)
    (hwrite : List.Forall₂ (fun a text => BaseArgument.write a = .ok text) items texts)
    (hlevels : levels = [itemLevel] ∨ levels = [afterArgument, itemLevel])
    (hfuel : items.length < fuel) (hws : ws = [] ∨ ws = [(' ' : Char)])
    (hc : c.Before (ws ++ (ToText.joined [' '] texts ++ (']' : Char) :: rest))) :
    Succeeds (readGroup levels fuel c) fun found =>
      found.1.mapM OfOutline.baseArgument = .ok (items.map BaseArgument.unnamed) ∧
        found.2.Before rest := by
  induction hwrite generalizing c ws levels fuel with
  | nil =>
    obtain ⟨fuel, rfl⟩ : ∃ k, fuel = k + 1 := ⟨fuel - 1, by omega⟩
    have hclose : .rightBracket ∈ Level.sought levels ∧
        Level.refusing? levels .rightBracket = none := by
      rcases hlevels with rfl | rfl <;> decide
    refine (Cursor.take_ok hc (((Begins.mark .rightBracket rfl rest).lexes hclose.1).lead hws)
      hclose.2).bind fun ⟨token, c⟩ ⟨htoken, hc⟩ => ?_
    have hend : (token.kind == Terminal.rightBracket) = true := by rw [htoken.kind]; rfl
    simp only [hend, if_true]
    exact .ok ⟨rfl, hc⟩
  | @cons a text items texts hfirst hmore ih =>
    obtain ⟨fuel, rfl⟩ : ∃ k, fuel = k + 1 := ⟨fuel - 1, by omega⟩
    obtain ⟨hvalid, hvalids⟩ := List.forall_mem_cons.1 hitems
    have hadmits : AdmitsArguments levels := by
      rcases hlevels with rfl | rfl
      · exact admitsArguments_item
      · exact admitsArguments_afterItem
    obtain ⟨ws', hws', htail, hends⟩ := exists_separator text texts rest
    obtain ⟨kind, hkind, hlexes, hgives⟩ := lexes_argument hvalid hfirst hends
    rw [htail] at hc
    refine (Cursor.take_ok hc ((hlexes _ hadmits.1).lead hws) (hadmits.2 kind hkind)).bind
      fun ⟨token, c⟩ ⟨htoken, hc⟩ => ?_
    have hopen : (token.kind == Terminal.rightBracket) = false := by
      rw [htoken.kind, beq_eq_false_iff_ne]
      rintro rfl
      revert hkind
      decide
    simp only [hopen]
    refine (ih fuel hvalids (.inr rfl) (by simpa using hfuel) hws' hc).bind
      fun ⟨found, c⟩ ⟨hfound, hc⟩ => ?_
    refine .ok ⟨?_, hc⟩
    rw [List.mapM_cons, hgives token htoken, hfound]
    rfl

/-! ## All arguments -/

/-- A text ends the arguments of a line: it begins with one of the tokens that do. -/
def EndsArguments (text : List Char) (kind : Terminal) (lexeme left : List Char) : Prop :=
  kind ∈ endings ∧ EndsNumber text ∧ ∀ kinds, kind ∈ kinds → Lexes kinds text kind lexeme left

theorem length_le_joined (separator : Char) (texts : List (List Char)) :
    texts.length ≤ (ToText.joined [separator] texts).length + 1 := by
  induction texts with
  | nil => exact Nat.zero_le _
  | cons text texts ih =>
    rw [joined_cons]
    cases texts with
    | nil => simp
    | cons next texts =>
      simp only [List.length_cons, List.isEmpty_cons, List.length_append] at ih ⊢
      simp
      omega

theorem arguments_cons {written : Source.Argument} {more : List Source.Argument} {a : Argument}
    {as : List Argument} (h : OfOutline.argument written = .ok a)
    (hmore : OfOutline.arguments more = .ok as) :
    OfOutline.arguments (written :: more) = .ok (a :: as) := by
  rw [OfOutline.arguments] at hmore ⊢
  rw [List.mapM_cons, h, hmore]
  rfl

/-- What was found are the arguments of a line, the token that ends them and the cursor after it. -/
structure FindsArguments (arguments : List Argument) (kind : Terminal) (lexeme left : List Char)
    (found : List Source.Argument × Token × Cursor) : Prop where
  arguments : OfOutline.arguments found.1 = .ok (arguments.map Argument.canon)
  ending : found.2.1.Is kind lexeme
  cursor : found.2.2.Before left

section Step

variable {arguments : List Argument} {levels : List Level} {kind : Terminal} {fuel : Nat}
variable {lexeme left text : List Char}

theorem FindsArguments.cons {written : Source.Argument} {more : List Source.Argument}
    {a : Argument} {ending : Token} (hwritten : OfOutline.argument written = .ok a.canon)
    (h : FindsArguments arguments kind lexeme left (more, ending, c)) :
    FindsArguments (a :: arguments) kind lexeme left (written :: more, ending, c) :=
  ⟨arguments_cons hwritten h.arguments, h.ending, h.cursor⟩

theorem readArguments_nil
    (hlevels : levels = [argumentLevel] ∨ levels = [afterArgument, argumentLevel])
    (hend : EndsArguments text kind lexeme left) (hc : c.Before text) :
    Succeeds (readArguments levels (fuel + 1) c) (FindsArguments [] kind lexeme left) := by
  obtain ⟨hkind, -, hlexes⟩ := hend
  have hadmits : ∀ kind ∈ endings, kind ∈ Level.sought levels ∧
      Level.refusing? levels kind = none := by
    rcases hlevels with rfl | rfl <;> decide
  refine (Cursor.take_ok hc (hlexes _ (hadmits kind hkind).1) (hadmits kind hkind).2).bind
    fun ⟨token, c⟩ ⟨htoken, hc⟩ => ?_
  have hending : endings.contains token.kind = true := by
    rw [htoken.kind]
    exact List.contains_iff_mem.2 hkind
  simp only [hending, if_true]
  exact .ok ⟨rfl, htoken, hc⟩

/-- A single-token argument is read back, and the others after it. -/
theorem readArguments_single {a : BaseArgument} (ha : a.Valid) (hwrite : a.write = .ok text)
    (hlevels : levels = [argumentLevel] ∨ levels = [afterArgument, argumentLevel])
    (hrest : EndsNumber rest) (hc : c.Before (' ' :: (text ++ rest)))
    (hmore : ∀ c : Cursor, c.Before rest →
      Succeeds (readArguments [afterArgument, argumentLevel] fuel c)
        (FindsArguments arguments kind lexeme left)) :
    Succeeds (readArguments levels (fuel + 1) c)
      (FindsArguments (.base a :: arguments) kind lexeme left) := by
  have hadmits : AdmitsArguments levels := by
    rcases hlevels with rfl | rfl
    · exact admitsArguments_argument
    · exact admitsArguments_afterArgument
  obtain ⟨k, hk, hlexes, hgives⟩ := lexes_argument ha hwrite hrest
  refine (Cursor.take_ok hc (hlexes _ hadmits.1).blank (hadmits.2 k hk)).bind
    fun ⟨token, c⟩ ⟨htoken, hc⟩ => ?_
  have hplain : ∀ k ∈ argumentKinds,
      endings.contains k = false ∧ (k == Terminal.leftBracket) = false := by decide
  have hnot := hplain k hk
  rw [← htoken.kind] at hnot
  simp only [hnot.1, hnot.2]
  refine (hmore c hc).bind fun ⟨found, ending, c⟩ hfound => ?_
  have hargument : OfOutline.argument (.single token) = .ok (Argument.base a).canon := by
    rw [OfOutline.argument, hgives token htoken]
    rfl
  exact .ok (hfound.cons hargument)

/-- A group is read back, and the arguments after it. -/
theorem readArguments_group {sets : List (List BaseArgument)} {name : Option String}
    (ha : (Argument.repetition sets name).Valid)
    (hwrite : (Argument.repetition sets name).write = .ok text)
    (hlevels : levels = [argumentLevel] ∨ levels = [afterArgument, argumentLevel])
    (hfuel : text.length ≤ fuel) (hc : c.Before (' ' :: (text ++ rest)))
    (hmore : ∀ c : Cursor, c.Before rest → Succeeds (readArguments [argumentLevel] fuel c)
      (FindsArguments arguments kind lexeme left)) :
    Succeeds (readArguments levels (fuel + 1) c)
      (FindsArguments (.repetition sets name :: arguments) kind lexeme left) := by
  obtain ⟨pieces, hpieces, heq⟩ := bind_eq_ok.1 hwrite
  cases heq
  have hopen : .leftBracket ∈ Level.sought levels ∧
      Level.refusing? levels .leftBracket = none := by
    rcases hlevels with rfl | rfl <;> decide
  simp only [List.cons_append, List.append_assoc, List.nil_append, List.length_cons,
    List.length_append, List.length_nil] at hc hfuel
  refine (Cursor.take_ok hc (((Begins.mark .leftBracket rfl _).lexes hopen.1).blank)
    hopen.2).bind fun ⟨token, c⟩ ⟨htoken, hc⟩ => ?_
  have hnot : endings.contains token.kind = false ∧
      (token.kind == Terminal.leftBracket) = true := by
    rw [htoken.kind]
    decide
  simp only [hnot.1, hnot.2, if_true]
  have hitems : ∀ b ∈ sets.flatten, b.Valid := by
    intro b hb
    obtain ⟨set, hset, hb⟩ := List.mem_flatten.1 hb
    exact ha set hset b hb
  -- The text of a group is longer than the number of its items.
  have hcount := length_le_joined ' ' pieces
  have hlength := (mapM_eq_ok.1 hpieces).length_eq
  refine (readGroup_ok (fuel + 1) hitems (mapM_eq_ok.1 hpieces) (.inl rfl) (by omega) (.inl rfl)
    hc).bind fun ⟨items, c⟩ ⟨hitems, hc⟩ => ?_
  refine (hmore c hc).bind fun ⟨found, ending, c⟩ hfound => ?_
  have hargument : OfOutline.argument (.group token.position items) =
      .ok (Argument.repetition sets name).canon := by
    rw [OfOutline.argument, hitems]
    rfl
  exact .ok (hfound.cons hargument)

end Step

/-- The arguments of a line are read back, up to the token that ends them. -/
theorem readArguments_ok {arguments : List Argument} {texts : List (List Char)} {text : List Char}
    {levels : List Level} {kind : Terminal} {lexeme : List Char} (fuel : Nat)
    (harguments : ∀ a ∈ arguments, a.Valid)
    (hwrite : List.Forall₂ (fun a text => Argument.write a = .ok text) arguments texts)
    (hlevels : levels = [argumentLevel] ∨ levels = [afterArgument, argumentLevel])
    (hend : EndsArguments text kind lexeme rest)
    (hfuel : ((texts.map ((' ' : Char) :: ·)).flatten ++ text).length < fuel)
    (hc : c.Before ((texts.map ((' ' : Char) :: ·)).flatten ++ text)) :
    Succeeds (readArguments levels fuel c) (FindsArguments arguments kind lexeme rest) := by
  induction hwrite generalizing c levels fuel with
  | nil =>
    obtain ⟨fuel, rfl⟩ : ∃ k, fuel = k + 1 := ⟨fuel - 1, by omega⟩
    exact readArguments_nil hlevels hend hc
  | @cons a written arguments texts hfirst hmore ih =>
    obtain ⟨fuel, rfl⟩ : ∃ k, fuel = k + 1 := ⟨fuel - 1, by omega⟩
    obtain ⟨hvalid, hvalids⟩ := List.forall_mem_cons.1 harguments
    have hrest : EndsNumber ((texts.map ((' ' : Char) :: ·)).flatten ++ text) := by
      cases texts with
      | nil => exact hend.2.1
      | cons next texts => exact endsNumber_cons (by decide) (by decide) (by decide)
    simp only [List.map_cons, List.flatten_cons, List.append_assoc, List.cons_append,
      List.length_cons, List.length_append] at hc hfuel
    have hless : ((texts.map ((' ' : Char) :: ·)).flatten ++ text).length < fuel := by
      rw [List.length_append]
      omega
    cases a with
    | base a =>
      exact readArguments_single hvalid hfirst hlevels hrest hc
        fun c hc => ih fuel hvalids (.inr rfl) hless hc
    | repetition sets name =>
      exact readArguments_group hvalid hfirst hlevels (by omega) hc
        fun c hc => ih fuel hvalids (.inl rfl) hless hc

/-! ## Descriptions and line ends -/

/-- The end of a line begins with a token that ends arguments. From that token on, the description
is read back, and the next line follows. -/
theorem ending_ok {description : Option String} {text : List Char}
    (h : ToText.ending description = .ok text) (rest : List Char) :
    ∃ kind lexeme left, EndsArguments (text ++ rest) kind lexeme left ∧
      ∀ (token : Token) (c : Cursor), token.Is kind lexeme → c.Before left →
        Succeeds (readEnding token c) fun found =>
          OfOutline.description found.1 = description.bind nonEmpty ∧
            found.2.Before (nextLine rest) := by
  have hbare (hnone : description.bind nonEmpty = none) (htext : text = [('\n' : Char)]) :
      ∃ kind lexeme left, EndsArguments (text ++ rest) kind lexeme left ∧
        ∀ (token : Token) (c : Cursor), token.Is kind lexeme → c.Before left →
          Succeeds (readEnding token c) fun found =>
            OfOutline.description found.1 = description.bind nonEmpty ∧
              found.2.Before (nextLine rest) := by
    subst htext
    refine ⟨.newline, _, nextLine rest, ⟨by decide, endsNumber_cons (by decide) (by decide)
      (by decide), fun kinds hkind => (Begins.newline rest).lexes hkind⟩,
        fun token c htoken hc => ?_⟩
    have hnot : (token.kind == Terminal.description) = false := by rw [htoken.kind]; rfl
    simp only [readEnding, hnot, hnone]
    exact .ok ⟨rfl, hc⟩
  cases description with
  | none => cases h; exact hbare rfl rfl
  | some s =>
    simp only [ToText.ending] at h
    split at h
    · next hempty => cases h; exact hbare (by simp [nonEmpty, hempty]) rfl
    · next hfilled =>
      split at h
      · cases h
      · next hplain =>
        cases h
        have hcomment : ∀ c ∈ (' ' : Char) :: s.toList, Terminal.inComment c = true := by
          simp only [Bool.or_eq_true, List.contains_iff_mem, not_or] at hplain
          intro c hc
          rcases List.mem_cons.1 hc with rfl | hc
          · rfl
          · simp only [Terminal.inComment, Bool.and_eq_true, bne_iff_ne]
            exact ⟨fun h => hplain.1 (h ▸ hc), fun h => hplain.2 (h ▸ hc)⟩
        refine ⟨.description, '#' :: ' ' :: s.toList, '\n' :: rest, ⟨by decide,
          endsNumber_cons (by decide) (by decide) (by decide), fun kinds hkind => ?_⟩,
          fun token c htoken hc => ?_⟩
        · have hbegins := Begins.description hcomment rest
          simpa using (hbegins.lexes hkind).blank
        · have his : (token.kind == Terminal.description) = true := by rw [htoken.kind]; rfl
          simp only [readEnding, his, if_true]
          refine (Cursor.expect_ok hc ((Begins.newline rest).lexes (by decide))).bind ?_
          rintro ⟨_, c⟩ ⟨_, hc⟩
          refine .ok ⟨?_, hc⟩
          simp [OfOutline.description, htoken.text]

/-- The description or none at the end of a line is read back. -/
theorem readDescription_ok {description : Option String} {text : List Char}
    (h : ToText.ending description = .ok text) (hc : c.Before (text ++ rest)) :
    Succeeds (readDescription c) fun found =>
      OfOutline.description found.1 = description.bind nonEmpty ∧
      found.2.Before (nextLine rest) := by
  obtain ⟨kind, lexeme, left, ⟨hkind, -, hlexes⟩, hread⟩ := ending_ok h rest
  exact (Cursor.expect_ok hc (hlexes endings hkind)).bind
    fun ⟨token, c⟩ ⟨htoken, hc⟩ => hread token c htoken hc

/-- The arguments and the description at the end of a line are read back. -/
theorem readTrailer_ok {arguments : List Argument} {description : Option String}
    {written text : List Char} (harguments : ∀ a ∈ arguments, a.Valid)
    (hwrite : Argument.writeAll arguments = .ok written)
    (hending : ToText.ending description = .ok text) (hc : c.Before (written ++ (text ++ rest))) :
    Succeeds (readTrailer c) fun found =>
      OfOutline.arguments found.1 = .ok (arguments.map Argument.canon) ∧
        OfOutline.description found.2.1 = description.bind nonEmpty ∧
        found.2.2.Before (nextLine rest) := by
  obtain ⟨kind, lexeme, left, hends, hread⟩ := ending_ok hending rest
  obtain ⟨texts, htexts, heq⟩ := bind_eq_ok.1 hwrite
  cases heq
  refine (readArguments_ok (c.bound + 1) harguments (mapM_eq_ok.1 htexts) (.inl rfl) hends
    (Nat.lt_succ_of_le hc.bound) hc).bind fun ⟨found, ending, c⟩ ⟨hfound, hending, hc⟩ => ?_
  refine (hread ending c hending hc).bind fun ⟨described, c⟩ ⟨hdescribed, hc⟩ => ?_
  exact .ok ⟨hfound, hdescribed, hc⟩

end CommandSequence.ReadBack
