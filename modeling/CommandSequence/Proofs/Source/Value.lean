import CommandSequence.Document.OfOutline
import CommandSequence.Proofs.Json.Grammar
import CommandSequence.Proofs.Source.Cursor

/-!
# Reading metadata values

A metadata value is JSON, read token by token. Every text that denotes a JSON value is read as that
value (`read_of_denotes`), however it is spaced and however deep it is, if its integers are short
and no line ends beside a colon, where the reader looks for no line end. The induction is on the
derivation, with one form of reading for each kind of phrase (`Reads`), and fuel is counted against
the length of the text.
-/

namespace CommandSequence.Source.Value

open Json (Denotes IsSpacing IsBlanks)

variable {fuel : Nat} {c : Cursor} {text rest ws : List Char}

/-- The text begins with a token of one of the kinds. Once that is taken, the reader gives a result
of which `P` holds, and stands before the rest. -/
def Continues {α : Type} (kinds : List Terminal) (text : List Char)
    (read : Token → Cursor → Except SyntaxError (α × Cursor)) (P : α → Prop) (rest : List Char) :
    Prop :=
  ∃ kind lexeme left, kind ∈ kinds ∧ Begins text kind lexeme left ∧
    ∀ token c, token.Is kind lexeme → c.Before left →
      Succeeds (read token c) fun found => P found.1 ∧ found.2.Before rest

/-- The rest of a member after its key: the colon and the value. -/
def readMember (key : Token) (fuel : Nat) (c : Cursor) :
    Except SyntaxError ((Token × Value) × Cursor) := do
  let (_, c) ← c.expect [.colon]
  let (token, c) ← c.expect openers
  let (value, c) ← readFrom token fuel c
  return ((key, value), c)

/-- The text is read as the phrase wherever it stands. -/
def Reads : Json.Phrase → List Char → Prop
  -- fuel falls at every value and at every item or member, each at least a character long
  | .value v, text => ∀ fuel rest, 2 * text.length < fuel → EndsNumber rest →
    Continues openers (text ++ rest) (fun token c => readFrom token fuel c)
      (fun written => OfOutline.value written = .ok v) rest
  | .items vs, text => ∀ fuel rest, 2 * text.length + 1 < fuel →
    Continues openers (text ++ (']' : Char) :: rest) (fun token c => readItems token fuel c)
      (fun written => OfOutline.values written = .ok vs) rest
  | .member m, text => ∀ fuel rest, 2 * text.length ≤ fuel → EndsNumber rest →
    Continues [.string] (text ++ rest) (fun key c => readMember key fuel c)
      (fun written => OfOutline.string written.1 = .ok m.1 ∧ OfOutline.value written.2 = .ok m.2)
      rest
  | .members ms, text => ∀ fuel rest, 2 * text.length < fuel →
    Continues [.string] (text ++ ('\x7d' : Char) :: rest) (fun key c => readMembers key fuel c)
      (fun written => OfOutline.members written = .ok ms) rest

/-! ## Scalars -/

/-- A single token is a scalar. -/
theorem reads_scalar {v : Json.Value} {text : List Char} {kind : Terminal}
    (hkind : kind ∈ openers ∧ kind ≠ .leftBrace ∧ kind ≠ .leftBracket)
    (hbegins : ∀ rest, EndsNumber rest → Begins (text ++ rest) kind text rest)
    (hvalue : ∀ token : Token, token.Is kind text →
      OfOutline.value (.scalar token) = .ok v) : Reads (.value v) text := by
  intro fuel rest hfuel hrest
  obtain ⟨fuel, rfl⟩ : ∃ k, fuel = k + 1 := ⟨fuel - 1, by omega⟩
  refine ⟨kind, text, rest, hkind.1, hbegins rest hrest, fun token c htoken hc => ?_⟩
  refine ⟨(.scalar token, c), readFrom_scalar ?_ ?_ fuel c, hvalue token htoken, hc⟩
  · rw [htoken.kind]; exact hkind.2.1
  · rw [htoken.kind]; exact hkind.2.2

theorem reads_string {body s : List Char} (h : Quoted.Denotes body s) :
    Reads (.value (.string (String.ofList s))) ('"' :: (body ++ [('"' : Char)])) := by
  have hkind : Terminal.string ∈ openers ∧ Terminal.string ≠ .leftBrace ∧
      Terminal.string ≠ .leftBracket := by decide
  refine reads_scalar hkind (fun rest _ => ?_) fun token htoken => ?_
  · simpa using Begins.quoted h.isBody rest
  · have hstring := OfOutline.string_of_decode? htoken.text h.decode?
    simp [OfOutline.value, htoken.kind, hstring, Except.map]

theorem reads_boolean (b : Bool) :
    Reads (.value (.boolean b)) (if b then String.toList "true" else String.toList "false") := by
  cases b with
  | false =>
    refine reads_scalar (by decide) (fun rest hrest => Begins.boolean false hrest) fun token h => ?_
    simp only [OfOutline.value, h.kind, OfOutline.boolean, h.text]
    rfl
  | true =>
    refine reads_scalar (by decide) (fun rest hrest => Begins.boolean true hrest) fun token h => ?_
    simp only [OfOutline.value, h.kind, OfOutline.boolean, h.text]
    rfl

theorem reads_null : Reads (.value .null) (String.toList "null") := by
  refine reads_scalar (by decide) (fun rest hrest => Begins.null hrest) fun token h => ?_
  simp only [OfOutline.value, h.kind]

theorem reads_number {s : Spelling} (hs : s.Proper) (hshort : s.IsShort) :
    Reads (.value (.number s.number)) s.text := by
  have hread : Number.read? s.text = .ok (some s.number) := (s.read?_text_iff hs).2 ⟨hshort, rfl⟩
  refine reads_scalar (by decide) (fun rest hrest => Begins.number hs hrest) fun token h => ?_
  simp only [OfOutline.value, h.kind, OfOutline.number, OfOutline.number?, h.text, hread]
  rfl

/-! ## Spacing -/

theorem isBlank_of_isBlanks (hws : IsBlanks ws) : ∀ c ∈ ws, Terminal.isBlank c = true := by
  have hblank : ∀ c ∈ [(' ' : Char), '\t'], Terminal.isBlank c = true :=
    List.all_eq_true.1 (by decide)
  exact fun c hc => hblank c (hws c hc)

/-- Spacing stays on its line or has a first line end. -/
theorem isSpacing_cases (hws : IsSpacing ws) :
    IsBlanks ws ∨ ∃ front more, ws = front ++ ('\n' : Char) :: more ∧ IsBlanks front ∧
    IsSpacing more := by
  induction ws with
  | nil => exact .inl (List.forall_mem_nil _)
  | cons d ws ih =>
    obtain ⟨hd, hws⟩ := List.forall_mem_cons.1 hws
    by_cases hline : d = '\n'
    · exact .inr ⟨[], ws, by rw [hline]; rfl, List.forall_mem_nil _, hws⟩
    · have hd : d ∈ [(' ' : Char), '\t'] := by simpa [hline] using hd
      rcases ih hws with hinline | ⟨front, more, rfl, hfront, hmore⟩
      · exact .inl (List.forall_mem_cons.2 ⟨hd, hinline⟩)
      · exact .inr ⟨d :: front, more, rfl, List.forall_mem_cons.2 ⟨hd, hfront⟩, hmore⟩

theorem nextLine_spacing (hws : IsSpacing ws) (text : List Char) :
    nextLine (ws ++ text) = nextLine text := by
  induction ws with
  | nil => rfl
  | cons d ws ih =>
    obtain ⟨hd, hws⟩ := List.forall_mem_cons.1 hws
    rw [List.cons_append, ← ih hws]
    simp only [List.mem_cons, List.not_mem_nil, or_false] at hd
    rcases hd with rfl | rfl | rfl <;> rfl

/-- A token is taken past spacing. -/
theorem expectPastNewline_ok {levels : List Level} {kinds : List Terminal} {kind : Terminal}
    {lexeme left : List Char} (hws : IsSpacing ws) (hc : c.Before (ws ++ text))
    (hbegins : Begins text kind lexeme left) (hkind : kind ∈ kinds)
    (hsought : kind ∈ Level.sought levels ∧ .newline ∈ Level.sought levels)
    (hlevels : Level.refusing? levels kind = none ∧ Level.refusing? levels .newline = none)
    (hplain : kind ≠ .newline ∧ kind ≠ .description) :
    Succeeds (expectPastNewline c levels kinds) fun found =>
      found.1.Is kind lexeme ∧ found.2.Before left := by
  rcases isSpacing_cases hws with hinline | ⟨front, more, rfl, hfront, hmore⟩
  · have hlexes := (hbegins.lexes hsought.1).blanks (isBlank_of_isBlanks hinline)
    refine (Cursor.take_ok hc hlexes hlevels.1).bind fun ⟨token, after⟩ ⟨htoken, hafter⟩ => ?_
    have hnot : (token.kind == Terminal.newline) = false := by
      rw [htoken.kind, beq_eq_false_iff_ne]
      exact hplain.1
    simp only [hnot]
    exact .ok ⟨htoken, hafter⟩
  · rw [List.append_assoc, List.cons_append] at hc
    have hline := ((Begins.newline (more ++ text)).lexes hsought.2).blanks
      (isBlank_of_isBlanks hfront)
    refine (Cursor.take_ok hc hline hlevels.2).bind fun ⟨token, after⟩ ⟨htoken, hafter⟩ => ?_
    have hleft : nextLine (more ++ text) = text := by
      rw [nextLine_spacing hmore, nextLine_of_begins hbegins hplain.1 hplain.2]
    change after.Before (nextLine _) at hafter
    rw [hleft] at hafter
    have his : (token.kind == Terminal.newline) = true := by rw [htoken.kind]; rfl
    simp only [his, if_true]
    exact Cursor.expect_ok hafter (hbegins.lexes hkind)

/-- A line end is found past spacing, and takes the spacing after it with it. -/
theorem exists_newline {kinds : List Terminal} (hkinds : .newline ∈ kinds) (hws : IsSpacing ws)
    (rest : List Char) :
    ∃ lexeme, Lexes kinds (ws ++ ('\n' : Char) :: rest) .newline lexeme (nextLine rest) := by
  rcases isSpacing_cases hws with hinline | ⟨front, more, rfl, hfront, hmore⟩
  · exact ⟨_, ((Begins.newline rest).lexes hkinds).blanks (isBlank_of_isBlanks hinline)⟩
  · rw [List.append_assoc, List.cons_append]
    have hlexes := ((Begins.newline (more ++ ('\n' : Char) :: rest)).lexes hkinds).blanks
      (isBlank_of_isBlanks hfront)
    change Lexes _ _ _ _ (nextLine _) at hlexes
    rw [nextLine_spacing hmore, nextLine_newline] at hlexes
    exact ⟨_, hlexes⟩

theorem admits_openers {kind : Terminal} (h : kind ∈ openers) :
    kind ≠ .newline ∧ kind ≠ .description ∧ kind ≠ .rightBracket := by
  revert kind
  decide

/-- What begins a value is taken past spacing, where `closers` might stand too. -/
theorem expectOpener_ok (closers : List Terminal) {kind : Terminal} {lexeme left : List Char}
    (hws : IsSpacing ws) (hc : c.Before (ws ++ text)) (hbegins : Begins text kind lexeme left)
    (hkind : kind ∈ openers) :
    Succeeds (expectPastNewline c [⟨closers ++ .newline :: openers, []⟩] (closers ++ openers))
      fun found => found.1.Is kind lexeme ∧ found.2.Before left := by
  have hmem : kind ∈ closers ++ .newline :: openers :=
    List.mem_append_right _ (List.mem_cons_of_mem _ hkind)
  have hline : .newline ∈ closers ++ .newline :: openers :=
    List.mem_append_right _ (List.mem_cons_self ..)
  exact expectPastNewline_ok hws hc hbegins (List.mem_append_right _ hkind) ⟨hmem, hline⟩
    ⟨Cursor.refusing?_single hmem, Cursor.refusing?_single hline⟩
    ⟨(admits_openers hkind).1, (admits_openers hkind).2.1⟩

/-- A comma or closing bracket is taken after a value. -/
theorem expectFollower_ok (kind closer : Terminal) {d : Char} (hws : IsSpacing ws)
    (hc : c.Before (ws ++ d :: text)) (hmark : kind.literal?.map String.toList = some [d])
    (hcloser : closer = .rightBrace ∨ closer = .rightBracket)
    (hkind : kind = .comma ∨ kind = closer) :
    Succeeds (expectPastNewline c [followers, ⟨[.comma, closer, .newline], []⟩] [.comma, closer])
      fun found => found.1.kind = kind ∧ found.2.Before text := by
  have hadmits (levels : List Level) (hl : levels = [followers, ⟨[.comma, closer, .newline], []⟩]) :
      kind ∈ [Terminal.comma, closer] ∧
      (kind ∈ Level.sought levels ∧ .newline ∈ Level.sought levels) ∧
      (Level.refusing? levels kind = none ∧ Level.refusing? levels .newline = none) ∧
      kind ≠ .newline ∧ kind ≠ .description := by
    subst hl
    rcases hcloser with rfl | rfl <;> rcases hkind with rfl | rfl <;> decide
  obtain ⟨hmem, hsought, hlevels, hplain⟩ := hadmits _ rfl
  exact (expectPastNewline_ok hws hc (Begins.mark kind hmark text) hmem hsought hlevels hplain).mono
    fun _ h => ⟨h.1.kind, h.2⟩

/-- Spacing and a comma or closing bracket end a number. -/
theorem endsNumber_spacing (d : Char) (hws : IsSpacing ws)
    (hd : d ∈ [(',' : Char), ']', '\x7d', '\n'])
    (rest : List Char) : EndsNumber (ws ++ d :: rest) := by
  have hends : ∀ d ∈ [(',' : Char), ']', '\x7d', '\n', ' ', '\t'],
      (!Character.isWord d && (!Character.isDigit d && d != '.')) = true :=
    List.all_eq_true.1 (by decide +kernel)
  have hcons {d : Char} (hd : d ∈ [(',' : Char), ']', '\x7d', '\n', ' ', '\t']) (rest : List Char) :
      EndsNumber (d :: rest) := by
    have hd := hends d hd
    simp only [Bool.and_eq_true, Bool.not_eq_true', bne_iff_ne] at hd
    exact endsNumber_cons hd.1 hd.2.1 hd.2.2
  have hspace : [(' ' : Char), '\t', '\n'] ⊆ [(',' : Char), ']', '\x7d', '\n', ' ', '\t'] := by simp
  cases ws with
  | nil => exact hcons (List.mem_append_left [(' ' : Char), '\t'] hd) rest
  | cons x ws => exact hcons (hspace (hws x (List.mem_cons_self ..))) _

/-! ## Items -/

theorem values_cons {written : Value} {more : List Value} {v : Json.Value} {vs : List Json.Value}
    (h : OfOutline.value written = .ok v) (hmore : OfOutline.values more = .ok vs) :
    OfOutline.values (written :: more) = .ok (v :: vs) := by
  rw [OfOutline.values, h, hmore]
  rfl

theorem reads_lastItem {v : Json.Value} (h : Reads (.value v) text) (hws : IsSpacing ws) :
    Reads (.items [v]) (text ++ ws) := by
  intro fuel rest hfuel
  obtain ⟨fuel, rfl⟩ : ∃ k, fuel = k + 1 := ⟨fuel - 1, by omega⟩
  rw [List.length_append] at hfuel
  rw [List.append_assoc]
  obtain ⟨kind, lexeme, left, hkind, hbegins, hread⟩ :=
    h fuel _ (by omega) (endsNumber_spacing ']' hws (by decide) rest)
  refine ⟨kind, lexeme, left, hkind, hbegins, fun token c htoken hc => ?_⟩
  refine (hread token c htoken hc).bind ?_
  rintro ⟨written, c⟩ ⟨hvalue, hc⟩
  refine (expectFollower_ok .rightBracket .rightBracket hws hc rfl (.inr rfl) (.inr rfl)).bind ?_
  rintro ⟨next, c⟩ ⟨hnext, hc⟩
  have hclose : (next.kind == Terminal.rightBracket) = true := by rw [hnext]; rfl
  simp only [hclose, if_true]
  exact .ok ⟨values_cons hvalue rfl, hc⟩

theorem reads_moreItems {ws' more : List Char} {v : Json.Value} {vs : List Json.Value}
    (h : Reads (.value v) text) (hws : IsSpacing ws) (hws' : IsSpacing ws')
    (hmore : Reads (.items vs) more) :
    Reads (.items (v :: vs)) (text ++ (ws ++ (',' : Char) :: (ws' ++ more))) := by
  intro fuel rest hfuel
  obtain ⟨fuel, rfl⟩ : ∃ k, fuel = k + 1 := ⟨fuel - 1, by omega⟩
  simp only [List.length_append, List.length_cons] at hfuel
  simp only [List.append_assoc, List.cons_append]
  obtain ⟨nextKind, nextLexeme, nextLeft, hnextKind, hnextBegins, hnextRead⟩ :=
    hmore fuel rest (by omega)
  obtain ⟨kind, lexeme, left, hkind, hbegins, hread⟩ :=
    h fuel _ (by omega)
      (endsNumber_spacing ',' hws (by decide) (ws' ++ (more ++ (']' : Char) :: rest)))
  refine ⟨kind, lexeme, left, hkind, hbegins, fun token c htoken hc => ?_⟩
  refine (hread token c htoken hc).bind ?_
  rintro ⟨written, c⟩ ⟨hvalue, hc⟩
  refine (expectFollower_ok .comma .rightBracket hws hc rfl (.inr rfl) (.inl rfl)).bind ?_
  rintro ⟨comma, c⟩ ⟨hcomma, hc⟩
  have hopen : (comma.kind == Terminal.rightBracket) = false := by rw [hcomma]; rfl
  simp only [hopen]
  refine (expectOpener_ok [] hws' hc hnextBegins hnextKind).bind ?_
  rintro ⟨first, c⟩ ⟨hfirst, hc⟩
  refine (hnextRead first c hfirst hc).bind ?_
  rintro ⟨items, c⟩ ⟨hvalues, hc⟩
  exact .ok ⟨values_cons hvalue hvalues, hc⟩

/-! ## Members -/

theorem members_cons {written : Token × Value} {more : List (Token × Value)}
    {m : String × Json.Value} {ms : List (String × Json.Value)}
    (hkey : OfOutline.string written.1 = .ok m.1) (h : OfOutline.value written.2 = .ok m.2)
    (hmore : OfOutline.members more = .ok ms) :
    OfOutline.members (written :: more) = .ok (m :: ms) := by
  rw [OfOutline.members, hkey, h, hmore]
  rfl

theorem readMembers_eq (key : Token) (fuel : Nat) (c : Cursor) :
    readMembers key (fuel + 1) c = (do
      let (written, c) ← readMember key fuel c
      let (next, c) ← expectPastNewline c [followers, ⟨[.comma, .rightBrace, .newline], []⟩]
        [.comma, .rightBrace]
      if next.kind == .rightBrace then return ([written], c)
      else
        let (nextKey, c) ← expectPastNewline c [⟨[.string, .newline], []⟩] [.string]
        let (members, c) ← readMembers nextKey fuel c
        return (written :: members, c)) := by
  simp only [readMembers, readMember, bind_assoc, pure_bind]

theorem reads_member {body s ws' : List Char} {v : Json.Value} (hkey : Quoted.Denotes body s)
    (hws : IsBlanks ws) (hws' : IsBlanks ws') (h : Reads (.value v) text) :
    Reads (.member (String.ofList s, v))
      ('"' :: (body ++ ('"' : Char) :: (ws ++ (':' : Char) :: (ws' ++ text)))) := by
  intro fuel rest hfuel hrest
  simp only [List.length_cons, List.length_append] at hfuel
  simp only [List.append_assoc, List.cons_append]
  obtain ⟨kind, lexeme, left, hkind, hbegins, hread⟩ := h fuel rest (by omega) hrest
  refine ⟨.string, _, _, by decide, Begins.quoted hkey.isBody _, fun key c hfound hc => ?_⟩
  have hcolon := ((Begins.mark .colon rfl (ws' ++ (text ++ rest))).lexes
    (List.mem_singleton.2 rfl)).blanks (isBlank_of_isBlanks hws)
  refine (Cursor.expect_ok hc hcolon).bind ?_
  rintro ⟨_, c⟩ ⟨-, hc⟩
  refine (Cursor.expect_ok hc ((hbegins.lexes hkind).blanks (isBlank_of_isBlanks hws'))).bind ?_
  rintro ⟨token, c⟩ ⟨htoken, hc⟩
  refine (hread token c htoken hc).bind ?_
  rintro ⟨written, c⟩ ⟨hvalue, hc⟩
  exact .ok ⟨⟨OfOutline.string_of_decode? hfound.text hkey.decode?, hvalue⟩, hc⟩

theorem reads_lastMember {m : String × Json.Value} (h : Reads (.member m) text)
    (hws : IsSpacing ws) : Reads (.members [m]) (text ++ ws) := by
  intro fuel rest hfuel
  obtain ⟨fuel, rfl⟩ : ∃ k, fuel = k + 1 := ⟨fuel - 1, by omega⟩
  rw [List.length_append] at hfuel
  rw [List.append_assoc]
  obtain ⟨kind, lexeme, left, hkind, hbegins, hread⟩ :=
    h fuel _ (by omega) (endsNumber_spacing '\x7d' hws (by decide) rest)
  refine ⟨kind, lexeme, left, hkind, hbegins, fun key c hkey hc => ?_⟩
  simp only [readMembers_eq]
  refine (hread key c hkey hc).bind ?_
  rintro ⟨written, c⟩ ⟨⟨hname, hvalue⟩, hc⟩
  refine (expectFollower_ok .rightBrace .rightBrace hws hc rfl (.inl rfl) (.inr rfl)).bind ?_
  rintro ⟨next, c⟩ ⟨hnext, hc⟩
  have hclose : (next.kind == Terminal.rightBrace) = true := by rw [hnext]; rfl
  simp only [hclose, if_true]
  exact .ok ⟨members_cons hname hvalue rfl, hc⟩

theorem reads_moreMembers {ws' more : List Char} {m : String × Json.Value}
    {ms : List (String × Json.Value)} (h : Reads (.member m) text) (hws : IsSpacing ws)
    (hws' : IsSpacing ws') (hmore : Reads (.members ms) more) :
    Reads (.members (m :: ms)) (text ++ (ws ++ (',' : Char) :: (ws' ++ more))) := by
  intro fuel rest hfuel
  obtain ⟨fuel, rfl⟩ : ∃ k, fuel = k + 1 := ⟨fuel - 1, by omega⟩
  simp only [List.length_append, List.length_cons] at hfuel
  simp only [List.append_assoc, List.cons_append]
  obtain ⟨_, nextLexeme, nextLeft, hnextKind, hnextBegins, hnextRead⟩ := hmore fuel rest (by omega)
  cases List.mem_singleton.1 hnextKind
  obtain ⟨kind, lexeme, left, hkind, hbegins, hread⟩ :=
    h fuel _ (by omega)
      (endsNumber_spacing ',' hws (by decide) (ws' ++ (more ++ ('\x7d' : Char) :: rest)))
  refine ⟨kind, lexeme, left, hkind, hbegins, fun key c hkey hc => ?_⟩
  simp only [readMembers_eq]
  refine (hread key c hkey hc).bind ?_
  rintro ⟨written, c⟩ ⟨⟨hname, hvalue⟩, hc⟩
  refine (expectFollower_ok .comma .rightBrace hws hc rfl (.inl rfl) (.inl rfl)).bind ?_
  rintro ⟨comma, c⟩ ⟨hcomma, hc⟩
  have hopen : (comma.kind == Terminal.rightBrace) = false := by rw [hcomma]; rfl
  simp only [hopen]
  refine (expectPastNewline_ok hws' hc hnextBegins (by decide) (by decide) (by decide)
    (by decide)).bind ?_
  rintro ⟨nextKey, c⟩ ⟨hnextKey, hc⟩
  refine (hnextRead nextKey c hnextKey hc).bind ?_
  rintro ⟨members, c⟩ ⟨hmembers, hc⟩
  exact .ok ⟨members_cons hname hvalue hmembers, hc⟩

/-! ## Arrays and objects -/

/-- The brackets of arrays and of objects, and the value with nothing between them. -/
inductive Brackets : Terminal → Terminal → Char → Char → Json.Value → Prop where
  | array : Brackets .leftBracket .rightBracket '[' ']' (.array [])
  | object : Brackets .leftBrace .rightBrace '\x7b' '\x7d' (.object [])

theorem reads_empty {opening closing : Terminal} {first last : Char} {v : Json.Value}
    (hbrackets : Brackets opening closing first last v) (hws : IsSpacing ws) :
    Reads (.value v) (first :: (ws ++ [last])) := by
  intro fuel rest hfuel _
  obtain ⟨fuel, rfl⟩ : ∃ k, fuel = k + 1 := ⟨fuel - 1, by omega⟩
  simp only [List.cons_append, List.append_assoc, List.nil_append]
  have hopens : opening ∈ openers := by cases hbrackets <;> decide
  have hbegins : Begins (first :: (ws ++ last :: rest)) opening [first] (ws ++ last :: rest) := by
    cases hbrackets <;> exact Begins.mark _ rfl _
  have hcloses : Begins (last :: rest) closing [last] rest := by
    cases hbrackets <;> exact Begins.mark _ rfl rest
  refine ⟨opening, [first], _, hopens, hbegins, fun token c htoken hc => ?_⟩
  -- the reader has a branch for each kind of brackets, which looks for its own closing one
  cases hbrackets
  all_goals
    simp only [readFrom, htoken.kind]
    refine (expectPastNewline_ok hws hc hcloses (by decide) (by decide) (by decide)
      (by decide)).bind ?_
    rintro ⟨next, c⟩ ⟨hnext, hc⟩
    rw [if_pos (by rw [hnext.kind]; rfl)]
    exact .ok ⟨rfl, hc⟩

theorem reads_array {vs : List Json.Value} (hws : IsSpacing ws) (h : Reads (.items vs) text) :
    Reads (.value (.array vs)) ('[' :: (ws ++ (text ++ [(']' : Char)]))) := by
  intro fuel rest hfuel _
  obtain ⟨fuel, rfl⟩ : ∃ k, fuel = k + 1 := ⟨fuel - 1, by omega⟩
  simp only [List.length_cons, List.length_append] at hfuel
  obtain ⟨kind, lexeme, left, hkind, hbegins, hread⟩ := h fuel rest (by omega)
  simp only [List.cons_append, List.append_assoc, List.nil_append]
  refine ⟨.leftBracket, ['['], _, by decide, Begins.mark _ rfl _, fun token c htoken hc => ?_⟩
  simp only [readFrom, htoken.kind]
  refine (expectOpener_ok [.rightBracket] hws hc hbegins hkind).bind ?_
  rintro ⟨first, c⟩ ⟨hfirst, hc⟩
  have hopen : (first.kind == Terminal.rightBracket) = false := by
    rw [hfirst.kind, beq_eq_false_iff_ne]
    exact (admits_openers hkind).2.2
  simp only [hopen]
  refine (hread first c hfirst hc).bind ?_
  rintro ⟨items, c⟩ ⟨hvalues, hc⟩
  exact .ok ⟨by rw [OfOutline.value, hvalues]; rfl, hc⟩

theorem reads_object {ms : List (String × Json.Value)} (hws : IsSpacing ws)
    (h : Reads (.members ms) text) :
    Reads (.value (.object (Dictionary.ofList ms)))
      ('\x7b' :: (ws ++ (text ++ [('\x7d' : Char)]))) := by
  intro fuel rest hfuel _
  obtain ⟨fuel, rfl⟩ : ∃ k, fuel = k + 1 := ⟨fuel - 1, by omega⟩
  simp only [List.length_cons, List.length_append] at hfuel
  obtain ⟨_, lexeme, left, hkind, hbegins, hread⟩ := h fuel rest (by omega)
  cases List.mem_singleton.1 hkind
  simp only [List.cons_append, List.append_assoc, List.nil_append]
  refine ⟨.leftBrace, ['\x7b'], _, by decide, Begins.mark _ rfl _, fun token c htoken hc => ?_⟩
  simp only [readFrom, htoken.kind]
  refine (expectPastNewline_ok hws hc hbegins (by decide) (by decide) (by decide)
    (by decide)).bind ?_
  rintro ⟨first, c⟩ ⟨hfirst, hc⟩
  have hopen : (first.kind == Terminal.rightBrace) = false := by rw [hfirst.kind]; rfl
  simp only [hopen]
  refine (hread first c hfirst hc).bind ?_
  rintro ⟨members, c⟩ ⟨hvalues, hc⟩
  exact .ok ⟨by rw [OfOutline.value, hvalues]; rfl, hc⟩

/-! ## Values -/

/-- Every text that denotes a phrase, with colons on one line with what stands beside them and with
short integers, is read as the phrase. -/
theorem reads_of_denotes {p : Json.Phrase} (h : Denotes IsBlanks Spelling.IsShort text p) :
    Reads p text := by
  induction h with
  | null => exact reads_null
  | boolean b => exact reads_boolean b
  | number hs hshort => exact reads_number hs hshort
  | string h => exact reads_string h
  | emptyArray hws => exact reads_empty .array hws
  | array hws _ ih => exact reads_array hws ih
  | emptyObject hws => exact reads_empty .object hws
  | object hws _ ih => exact reads_object hws ih
  | lastItem _ hws ih => exact reads_lastItem ih hws
  | moreItems _ hws hws' _ ih ihmore => exact reads_moreItems ih hws hws' ihmore
  | member hkey hws hws' _ ih => exact reads_member hkey hws hws' ih
  | lastMember _ hws ih => exact reads_lastMember ih hws
  | moreMembers _ hws hws' _ ih ihmore => exact reads_moreMembers ih hws hws' ihmore

/-- A value is read off the front of a text that goes on with something else. -/
theorem read_of_denotes {v : Json.Value} (h : Denotes IsBlanks Spelling.IsShort text (.value v))
    (hrest : EndsNumber rest) (hc : c.Before (' ' :: (text ++ rest))) :
    Succeeds (read c) fun found => OfOutline.value found.1 = .ok v ∧ found.2.Before rest := by
  have hfuel : 2 * text.length < 2 * c.bound := by
    have hbound := hc.bound
    simp only [List.length_cons, List.length_append] at hbound
    omega
  obtain ⟨kind, lexeme, left, hkind, hbegins, hread⟩ := reads_of_denotes h _ rest hfuel hrest
  exact (Cursor.expect_ok hc (hbegins.lexes hkind).blank).bind
    fun ⟨token, after⟩ ⟨htoken, hafter⟩ => hread token after htoken hafter

end CommandSequence.Source.Value
