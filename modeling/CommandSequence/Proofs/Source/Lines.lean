import CommandSequence.Proofs.Document.Tags
import CommandSequence.Proofs.Source.Arguments
import CommandSequence.Proofs.Source.Value

/-!
# Reading lines back

`ReadsLine` says that at a place a line is read from the front of a text, what holds of it, and
which place it leaves. One lemma for each form of written line gives its meaning back: of steps and
requests the part that their own line carries (`StepLine.Gives`, `RequestLine.Gives`), of directives
their effect. A place matters only through the kinds of tokens that may begin a line there
(`Place.Opens`).
-/

namespace CommandSequence

open Json (Denotes IsSpacing IsBlanks)
open OfOutline (nonEmpty)
open Source (Terminal Token Cursor Level Lexes Begins nextLine Place Region)

/-- A token of a kind may begin the line at a place. -/
def Source.Place.Opens (place : Place) (kind : Terminal) : Prop :=
  kind ∈ Level.sought place.levels ∧ Level.refusing? place.levels kind = none

instance (place : Place) (kind : Terminal) : Decidable (place.Opens kind) :=
  inferInstanceAs (Decidable (_ ∧ _))

namespace ReadBack

variable {c : Cursor} {place place' : Place} {kind : Terminal} {text rest lexeme left : List Char}
variable {P : Source.Line → Prop}

/-- At a place a line is read from the front of a text, of which `P` holds, and leaves another
place. -/
structure ReadsLine (place : Place) (text rest : List Char) (place' : Place)
    (P : Source.Line → Prop) : Prop where
  filled : text ≠ []
  begins : nextLine (text ++ rest) = text ++ rest
  read : ∀ c : Cursor, c.Before (text ++ rest) →
    ∃ line after, Source.Line.read place c = .ok (some (line, place', after)) ∧ P line ∧
      after.Before (nextLine rest)

theorem ReadsLine.mono {Q : Source.Line → Prop} (h : ReadsLine place text rest place' P)
    (hPQ : ∀ line, P line → Q line) : ReadsLine place text rest place' Q := by
  refine ⟨h.filled, h.begins, fun c hc => ?_⟩
  obtain ⟨line, after, hread, hP, hafter⟩ := h.read c hc
  exact ⟨line, after, hread, hPQ line hP, hafter⟩

/-- A line is read if its first token is admitted and the rest of it is read. -/
theorem readsLine_of_lexes (hfilled : text ≠ []) (hbegins : nextLine (text ++ rest) = text ++ rest)
    (hlexes : Lexes (Level.sought place.levels) (text ++ rest) kind lexeme left)
    (hadmits : Level.refusing? place.levels kind = none)
    (hread : ∀ (token : Token) (c : Cursor), token.Is kind lexeme → c.Before left →
      Succeeds (Source.Line.readFrom place token c) fun found =>
        P found.1 ∧ found.2.1 = place' ∧ found.2.2.Before (nextLine rest)) :
    ReadsLine place text rest place' P := by
  refine ⟨hfilled, hbegins, fun c hc => ?_⟩
  obtain ⟨token, after, htake, htoken, hafter⟩ := Cursor.read_ok hc hlexes hadmits
  obtain ⟨⟨line, found, last⟩, hfrom, hP, rfl, hlast⟩ := hread token after htoken hafter
  refine ⟨line, last, ?_, hP, hlast⟩
  rw [Source.Line.read, htake]
  simp only [Bind.bind, Except.bind, hfrom]
  rfl

/-- A line is read if its first token may begin a line there and the rest of it is read. -/
theorem readsLine_of_begins (hbegins : Begins (text ++ rest) kind lexeme left)
    (hplace : place.Opens kind) (hkind : kind ≠ .newline ∧ kind ≠ .description)
    (hfilled : text ≠ [])
    (hread : ∀ (token : Token) (c : Cursor), token.Is kind lexeme → c.Before left →
      Succeeds (Source.Line.readFrom place token c) fun found =>
        P found.1 ∧ found.2.1 = place' ∧ found.2.2.Before (nextLine rest)) :
    ReadsLine place text rest place' P :=
  readsLine_of_lexes hfilled (Source.nextLine_of_begins hbegins hkind.1 hkind.2)
    (hbegins.lexes hplace.1) hplace.2 hread

/-- A line that begins with an identifier has something on it. -/
theorem nextLine_identifier {word : List Char} (hword : isIdentifier word = true) :
    word ≠ [] ∧ ∀ more, nextLine (word ++ more) = word ++ more := by
  cases word with
  | nil => cases hword
  | cons d word =>
    rw [isIdentifier, Bool.and_eq_true] at hword
    refine ⟨List.cons_ne_nil _ _, fun more => Source.nextLine_cons (fun hmem => ?_) _⟩
    have hplain : ∀ d ∈ [('\n' : Char), '\r', '#', ' ', '\t'], Character.isWordStart d = false :=
      List.all_iff_forall_prop.1 (by decide)
    rw [hplain d hmem] at hword
    cases hword.1

/-! ## Pieces of lines -/

theorem readNewline_ok (hc : c.Before ('\n' :: rest)) :
    Succeeds (Source.Line.readNewline c) fun after => after.Before (nextLine rest) :=
  (Cursor.expect_ok hc ((Begins.newline rest).lexes (by decide))).bind
    fun ⟨_, _⟩ ⟨_, hafter⟩ => .ok hafter

/-- A quoted string is taken after a blank. -/
theorem expectString_ok {s : String} {kinds : List Terminal} (hkinds : .string ∈ kinds)
    (hc : c.Before (' ' :: (ToText.quoted s ++ rest))) :
    Succeeds (c.expect kinds) fun found =>
      found.1.kind = .string ∧ OfOutline.string found.1 = .ok s ∧ found.2.Before rest :=
  (Cursor.expect_ok hc ((Begins.string s.toList rest).lexes hkinds).blank).mono
    fun _ ⟨htoken, hafter⟩ => ⟨htoken.kind, OfOutline.string_of_is htoken, hafter⟩

theorem readStringLine_ok {s : String}
    (hc : c.Before (' ' :: (ToText.quoted s ++ ('\n' : Char) :: rest))) :
    Succeeds (Source.Line.readStringLine c) fun found =>
      OfOutline.string found.1 = .ok s ∧ found.2.Before (nextLine rest) := by
  refine (expectString_ok (by decide) hc).bind fun ⟨token, c⟩ ⟨_, hs, hc⟩ => ?_
  exact (readNewline_ok hc).bind fun c hc => .ok ⟨hs, hc⟩

theorem readParenthesized_ok {s : String}
    (hc : c.Before ('(' :: (ToText.quoted s ++ (')' : Char) :: rest))) :
    Succeeds (Source.Line.readParenthesized c) fun found =>
      OfOutline.string found.1 = .ok s ∧ found.2.Before rest := by
  refine (Cursor.expect_mark .leftParenthesis hc rfl).bind fun ⟨_, c⟩ hc => ?_
  refine (Cursor.expect_ok hc ((Begins.string s.toList _).lexes (by decide))).bind
    fun ⟨token, c⟩ ⟨htoken, hc⟩ => ?_
  exact (Cursor.expect_mark .rightParenthesis hc rfl).bind
    fun ⟨_, c⟩ hc => .ok ⟨OfOutline.string_of_is htoken, hc⟩

/-! ## Keyword lines -/

/-- A line of a keyword alone. -/
theorem readsLine_keyword {keyword : String} (hkeyword : kind.literal? = some keyword)
    (hplace : place.Opens kind) (hload : kind ≠ .load)
    (hfrom : ∀ (token : Token) (c after : Cursor), token.kind = kind →
      Source.Line.readNewline c = .ok after →
      ∃ line, Source.Line.readFrom place token c = .ok (line, place', after) ∧ P line) :
    ReadsLine place (keyword.toList ++ [('\n' : Char)]) rest place' P := by
  have hkind : kind ≠ .newline ∧ kind ≠ .description := by
    constructor
    · rintro rfl; cases hkeyword
    · rintro rfl; cases hkeyword
  have hbegins := Begins.literal hkeyword ('\n' :: rest) fun h => absurd h hload
  refine readsLine_of_begins (by simpa using hbegins) hplace hkind (by simp)
    fun token c htoken hc => ?_
  obtain ⟨after, hnewline, hafter⟩ := readNewline_ok hc
  obtain ⟨line, hline, hP⟩ := hfrom token c after htoken.kind hnewline
  exact ⟨(line, place', after), hline, hP, rfl, hafter⟩

/-- A line that begins with a keyword and a blank. -/
theorem readsLine_spaced {keyword spaced : String} {body : List Char}
    (hkeyword : kind.literal? = some keyword)
    (hspaced : spaced.toList = keyword.toList ++ [(' ' : Char)])
    (hplace : place.Opens kind) (hload : kind ≠ .load)
    (hread : ∀ (token : Token) (c : Cursor), token.kind = kind → c.Before (' ' :: (body ++ rest)) →
      Succeeds (Source.Line.readFrom place token c) fun found =>
        P found.1 ∧ found.2.1 = place' ∧ found.2.2.Before (nextLine rest)) :
    ReadsLine place (ToText.fixed spaced ++ body) rest place' P := by
  have hkind : kind ≠ .newline ∧ kind ≠ .description := by
    constructor
    · rintro rfl; cases hkeyword
    · rintro rfl; cases hkeyword
  have hbegins := Begins.literal hkeyword (' ' :: (body ++ rest)) fun h => absurd h hload
  refine readsLine_of_begins (by simpa [ToText.fixed, hspaced] using hbegins) hplace hkind
    (by simp [ToText.fixed, hspaced]) fun token c htoken hc => hread token c htoken.kind hc

/-- The line of the document's identifier. -/
theorem readsLine_id {s : String} (hplace : place.Opens .id) :
    ReadsLine place (ToText.fixed "@ID " ++ (ToText.quoted s ++ [('\n' : Char)])) rest
      { region := .identified } fun line =>
        ∃ position name, line = .id position name ∧ OfOutline.string name = .ok s := by
  refine readsLine_spaced rfl rfl hplace (by decide) fun token c hkind hc => ?_
  simp only [Source.Line.readFrom, hkind]
  have hline : c.Before (' ' :: (ToText.quoted s ++ ('\n' : Char) :: rest)) := by simpa using hc
  refine (readStringLine_ok hline).bind fun ⟨name, c⟩ ⟨hs, hc⟩ => ?_
  exact .ok ⟨⟨_, name, rfl, hs⟩, rfl, hc⟩

/-! ## Directives -/

/-- The place after a directive that is no metadata. -/
def resumed (place : Place) : Place :=
  { place with afterMetadata := false }

/-- The line of an engine. -/
theorem readsLine_engine {n : Int} {text : List Char} (hplace : place.Opens .engine)
    (hwrite : (Number.int n).literal = .ok text) :
    ReadsLine place (ToText.fixed "@ENGINE " ++ (text ++ [('\n' : Char)])) rest (resumed place)
      fun line =>
      ∃ directive position, line = .directive directive ∧
        OfOutline.effect directive = .ok (.engine position n) := by
  refine readsLine_spaced rfl rfl hplace (by decide) fun token c hkind hc => ?_
  obtain ⟨s, htext, hs, hread⟩ := Number.exists_spelling hwrite
  subst htext
  have hends : EndsNumber ('\n' :: rest) := endsNumber_cons (by decide) (by decide) (by decide)
  simp only [Source.Line.readFrom, hkind]
  refine (Cursor.expect_ok (by simpa using hc)
    ((Begins.number hs hends).lexes (by decide)).blank).bind fun ⟨number, c⟩ ⟨hnumber, hc⟩ => ?_
  refine (readNewline_ok hc).bind fun c hc => ?_
  refine .ok ⟨⟨_, token.position, rfl, ?_⟩, rfl, hc⟩
  have hn : OfOutline.number number = .ok (.int n) := by
    rw [OfOutline.number, OfOutline.number?, hnumber.text, hread]
    rfl
  rw [OfOutline.effect, hn]
  rfl

/-- The line of an epoch. -/
theorem readsLine_epoch {s : String} (hplace : place.Opens .epoch) :
    ReadsLine place (ToText.fixed "@EPOCH " ++ (ToText.quoted s ++ [('\n' : Char)])) rest
      (resumed place) fun line => ∃ directive position, line = .directive directive ∧
        OfOutline.effect directive = .ok (.epoch position s) := by
  refine readsLine_spaced rfl rfl hplace (by decide) fun token c hkind hc => ?_
  simp only [Source.Line.readFrom, hkind]
  have hline : c.Before (' ' :: (ToText.quoted s ++ ('\n' : Char) :: rest)) := by simpa using hc
  refine (readStringLine_ok hline).bind fun ⟨name, c⟩ ⟨hs, hc⟩ => ?_
  refine .ok ⟨⟨_, token.position, rfl, ?_⟩, rfl, hc⟩
  rw [OfOutline.effect, hs]
  rfl

/-- The text of a value, with spacing after it, is read to the end of its line. -/
theorem readMetadata_ok (key : String) {value : Json.Value} {json ws : List Char}
    (position : Source.Position) (hvalue : Denotes IsBlanks Spelling.IsShort json (.value value))
    (hws : IsSpacing ws)
    (hc : c.Before
      (' ' :: (ToText.quoted key ++ (' ' : Char) :: (json ++ (ws ++ ('\n' : Char) :: rest))))) :
    Succeeds (Source.Line.readMetadata position c) fun found =>
      OfOutline.entry found.1 = .ok (key, value) ∧ found.2.Before (nextLine rest) := by
  have hends := Source.Value.endsNumber_spacing '\n' hws (by decide) rest
  refine (expectString_ok (by decide) hc).bind fun ⟨name, c⟩ ⟨_, hkey, hc⟩ => ?_
  refine (Source.Value.read_of_denotes hvalue hends hc).bind
    fun ⟨written, c⟩ ⟨hwritten, hc⟩ => ?_
  have hsought : Terminal.newline ∈ Level.sought [Source.Value.followers, ⟨[.newline], []⟩] := by
    decide
  obtain ⟨_, hlexes⟩ := Source.Value.exists_newline hsought hws rest
  refine (Cursor.take_ok hc hlexes (by decide)).bind fun ⟨_, c⟩ ⟨_, hc⟩ => ?_
  refine .ok ⟨?_, hc⟩
  rw [OfOutline.entry]
  simp only [hkey, hwritten]
  rfl

/-- The written lines of a metadata entry, and why its value is read back. -/
theorem writeEntry_eq_ok {indent : Json.Indent} {key : String} {value : Json.Value}
    {p : Number → Prop} (h : Metadata.writeEntry indent key value = .ok text)
    (hvalue : value.Sound p) :
    text = ToText.fixed "@METADATA " ++
      (ToText.quoted key ++ (' ' : Char) :: (value.write indent ++ [('\n' : Char)]))
      ∧ value.Sound fun n => n.Fits false ∧ n.isFinite = true := by
  unfold Metadata.writeEntry at h
  split at h
  · next hnone =>
    cases h
    exact ⟨by simp, (hvalue.writable hnone).mono fun _ => Number.isWritable_iff.1⟩
  · cases h
  · cases h

/-- A metadata line below a step, request or command. -/
theorem readsLine_metadata {indent : Json.Indent} {key : String} {value : Json.Value}
    (hplace : place.Opens .metadata) (htail : place.tail ≠ .closed)
    (hvalue : value.Sound (Number.Fits false))
    (hwrite : Metadata.writeEntry indent key value = .ok text) :
    ReadsLine place text rest { place with afterMetadata := true } fun line =>
      ∃ entry, line = .directive (.metadata entry) ∧
        OfOutline.entry entry = .ok (key, value) := by
  obtain ⟨rfl, hfinite⟩ := writeEntry_eq_ok hwrite hvalue
  refine readsLine_spaced rfl rfl hplace (by decide) fun token c hkind hc => ?_
  have hopen : (place.tail == Source.Tail.closed) = false := beq_eq_false_iff_ne.2 htail
  simp only [Source.Line.readFrom, hkind, Source.Line.readMetadataLine]
  have hline : c.Before
      (' ' :: (ToText.quoted key ++ (' ' : Char) ::
        (value.write indent ++ ([] ++ ('\n' : Char) :: rest)))) := by
    simpa using hc
  refine (readMetadata_ok key token.position (Json.denotes_writeAt hfinite)
    Json.isSpacing_nil hline).bind
    fun ⟨entry, c⟩ ⟨hentry, hc⟩ => ?_
  simp only [hopen]
  exact .ok ⟨⟨entry, rfl, hentry⟩, rfl, hc⟩

/-- A metadata line of the header, with its value as it stands in the text. -/
theorem readsLine_headerEntry {key : String} {value : Json.Value} {json ws : List Char}
    (hplace : place.Opens .metadata) (htail : place.tail = .closed)
    (hvalue : Denotes IsBlanks Spelling.IsShort json (.value value)) (hws : IsSpacing ws) :
    ReadsLine place
      (ToText.fixed "@METADATA " ++
        (ToText.quoted key ++ (' ' : Char) :: (json ++ (ws ++ [('\n' : Char)])))) rest
      { region := .header, afterMetadata := true }
      fun line => ∃ entry, line = .metadata entry ∧ OfOutline.entry entry = .ok (key, value) := by
  refine readsLine_spaced rfl rfl hplace (by decide) fun token c hkind hc => ?_
  have hclosed : (place.tail == Source.Tail.closed) = true := by rw [htail]; rfl
  simp only [Source.Line.readFrom, hkind, Source.Line.readMetadataLine]
  have hline : c.Before
      (' ' :: (ToText.quoted key ++ (' ' : Char) :: (json ++ (ws ++ ('\n' : Char) :: rest)))) := by
    simpa using hc
  refine (readMetadata_ok key token.position hvalue hws hline).bind
    fun ⟨entry, c⟩ ⟨hentry, hc⟩ => ?_
  simp only [hclosed, if_true]
  exact .ok ⟨⟨entry, rfl, hentry⟩, rfl, hc⟩

/-- A written metadata line of the header. -/
theorem readsLine_header {indent : Json.Indent} {key : String} {value : Json.Value}
    (hplace : place.Opens .metadata) (htail : place.tail = .closed)
    (hvalue : value.Sound (Number.Fits false))
    (hwrite : Metadata.writeEntry indent key value = .ok text) :
    ReadsLine place text rest { region := .header, afterMetadata := true } fun line =>
      ∃ entry, line = .metadata entry ∧ OfOutline.entry entry = .ok (key, value) := by
  obtain ⟨rfl, hfinite⟩ := writeEntry_eq_ok hwrite hvalue
  exact readsLine_headerEntry hplace htail (Json.denotes_writeAt hfinite) Json.isSpacing_nil

end ReadBack

end CommandSequence
