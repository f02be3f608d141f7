import CommandSequence.Proofs.Source.Cursor
import CommandSequence.Source.Outline

/-!
# What lines are made of

The tokens of a line have the form of their kinds: a time tag is its letter and a body, a symbol is
an identifier that is no truth value, a name is an identifier. What a token was cut as decides that
(`Token.Of`), but for symbols, which also depend on what was looked for (`Token.Found`). If the
lines of a text are so, then so are the items that they make up (`Outline.lexed_ofLines`).
-/

namespace CommandSequence.Source

open Line (argumentKinds endings)

/-! ## Tokens -/

namespace Token

/-- The token is a time tag: the letter of its kind and a body. -/
def IsTag (token : Token) : Prop :=
  ∃ letter body, token.kind.tagLetter? = some letter ∧ token.text = letter :: body ∧
    token.kind.isTagBody body = true

/-- The token is an argument: a symbol is an identifier that is no truth value. -/
structure IsArgument (token : Token) : Prop where
  kind : token.kind ∈ argumentKinds
  symbol : token.kind = .identifier → isIdentifier token.text = true ∧
    truthWords.contains (String.ofList token.text) = false
  hex : token.kind = .hex → isHexLiteral token.text = true

variable {token : Token} {kinds : List Terminal}

/-- The token is of one of the kinds, and was cut as its kind is. -/
structure Of (kinds : List Terminal) (token : Token) : Prop where
  kind : token.kind ∈ kinds
  cut : ∃ text left, token.kind.cut? text = some (token.text, left)

namespace Of

theorem mono {kinds' : List Terminal} (h : token.Of kinds) (hkinds : token.kind ∈ kinds') :
    token.Of kinds' :=
  ⟨hkinds, h.cut⟩

theorem tail {kind : Terminal} (h : token.Of (kind :: kinds))
    (hkind : ¬(token.kind == kind) = true) : token.Of kinds :=
  h.mono ((List.mem_cons.1 h.kind).resolve_left fun heq => hkind (beq_iff_eq.2 heq))

/-- Of the end of the input there is no token. -/
theorem ne_endOfInput (h : token.Of kinds) : token.kind ≠ .endOfInput := by
  intro hkind
  obtain ⟨text, left, hcut⟩ := h.cut
  rw [hkind] at hcut
  cases hcut

theorem isTag (h : token.Of kinds) {letter : Char}
    (hletter : token.kind.tagLetter? = some letter) : token.IsTag := by
  obtain ⟨text, left, hcut⟩ := h.cut
  obtain ⟨body, htext, hbody⟩ := Terminal.isTagBody_of_cut? hletter hcut
  exact ⟨letter, body, hletter, htext, hbody⟩

theorem isTag_of_timeTags (h : token.Of timeTags) : token.IsTag := by
  have htags : ∀ kind ∈ timeTags, kind.tagLetter?.isSome = true := by decide
  obtain ⟨letter, hletter⟩ := Option.isSome_iff_exists.1 (htags _ h.kind)
  exact h.isTag hletter

theorem isIdentifier (h : token.Of kinds) (hkind : token.kind = .identifier) :
    isIdentifier token.text = true := by
  obtain ⟨text, left, hcut⟩ := h.cut
  rw [hkind] at hcut
  exact (Terminal.cutIdentifier?_eq_some hcut).2.1

end Of

theorem Found.of (h : token.Found kinds) : token.Of kinds := by
  obtain ⟨text, left, hfound⟩ := h
  obtain ⟨hmem, hcut, -⟩ := Cursor.of_firstCut? hfound
  exact ⟨hmem, text, left, hcut⟩

/-- An identifier where truth values are looked for is none of them. -/
theorem Found.ne_truthWord (h : token.Found kinds) (hkind : token.kind = .identifier)
    (hboolean : .boolean ∈ kinds) : truthWords.contains (String.ofList token.text) = false := by
  obtain ⟨text, left, hfound⟩ := h
  obtain ⟨-, hcut, hrivals⟩ := Cursor.of_firstCut? hfound
  rw [hkind] at hcut hrivals
  obtain ⟨rfl, -, hends⟩ := Terminal.cutIdentifier?_eq_some hcut
  have hnone := Option.or_eq_none_iff.1 (hrivals .boolean (by decide) hboolean)
  have hne {word : String} (hword : Terminal.cutWord? word.toList (token.text ++ left) = none) :
      String.ofList token.text ≠ word := by
    rintro rfl
    rw [String.toList_ofList, Begins.cutWord?_append hends] at hword
    cases hword
  simpa [truthWords, not_or] using And.intro (hne hnone.1) (hne hnone.2)

theorem Found.isArgument (h : token.Found kinds) (hboolean : .boolean ∈ kinds)
    (hkind : token.kind ∈ argumentKinds) : token.IsArgument where
  kind := hkind
  symbol hsymbol := ⟨h.of.isIdentifier hsymbol, h.ne_truthWord hsymbol hboolean⟩
  hex hhex := by
    obtain ⟨text, left, hcut⟩ := h.of.cut
    rw [hhex] at hcut
    exact (Terminal.cutHex?_eq_some hcut).2.1

end Token

/-! ## Lines -/

/-- Every token of the argument is one. -/
def Argument.Lexed : Argument → Prop
  | .single token => token.IsArgument
  | .group _ items => ∀ token ∈ items, token.IsArgument

/-- The tokens of a step's line have the form of their kinds. -/
structure StepLine.Lexed (line : StepLine) : Prop where
  tag : line.tag.kind ∈ timeTags ∧ line.tag.IsTag
  subject : line.kind = .command → isIdentifier line.subject.text = true
  arguments : ∀ a ∈ line.arguments, a.Lexed

/-- The time tag or ground epoch has the form of its kind. -/
def Timing.Lexed : Timing → Prop
  | .tag token => token.kind ∈ timeTags ∧ token.IsTag
  | .groundEpoch token _ => token.kind = .groundEpoch ∧ token.IsTag

/-- The tokens of a command's line have the form of their kinds. -/
structure CommandLine.Lexed (line : CommandLine) : Prop where
  stem : isIdentifier line.stem.text = true
  arguments : ∀ a ∈ line.arguments, a.Lexed

/-- The name of a declaration and the words after it are identifiers. -/
structure DeclarationItem.Lexed (item : DeclarationItem) : Prop where
  name : isIdentifier item.name.text = true
  words : ∀ token ∈ item.details, token.kind ≠ .string → isIdentifier token.text = true

/-- The tokens of a line have the form of their kinds. -/
def Line.Lexed : Line → Prop
  | .step line => line.Lexed
  | .requestBegin line => line.timing.Lexed
  | .command _ line => line.Lexed
  | .declaration item => item.Lexed
  | _ => True

namespace Line

variable {levels : List Level} {c : Cursor}

/-- At the levels truth values are looked for, and what is admitted is an argument or a stop. -/
structure Argues (stops : List Terminal) (levels : List Level) : Prop where
  boolean : .boolean ∈ Level.sought levels
  admits : ∀ kind, Level.refusing? levels kind = none → kind ∈ argumentKinds ∨ kind ∈ stops

theorem argues_argument : Argues (.leftBracket :: endings) [argumentLevel] :=
  ⟨by decide, fun kind => by cases kind <;> decide⟩

theorem argues_afterArgument : Argues (.leftBracket :: endings) [afterArgument, argumentLevel] :=
  ⟨by decide, fun kind => by cases kind <;> decide⟩

theorem argues_item : Argues [.rightBracket] [itemLevel] :=
  ⟨by decide, fun kind => by cases kind <;> decide⟩

theorem argues_afterItem : Argues [.rightBracket] [afterArgument, itemLevel] :=
  ⟨by decide, fun kind => by cases kind <;> decide⟩

theorem Argues.isArgument {stops : List Terminal} {token : Token} (h : Argues stops levels)
    (hfound : token.Found (Level.sought levels))
    (hadmits : Level.refusing? levels token.kind = none) (hstop : token.kind ∉ stops) :
    token.IsArgument :=
  hfound.isArgument h.boolean ((h.admits _ hadmits).resolve_right hstop)

/-! ## Beginnings of lines -/

/-- What may begin a line at any place. -/
def firsts : List Terminal := [.description, .newline, .id, .loadAndGo, .parametersBegin,
  .parametersEnd, .localsBegin, .localsEnd, .metadata, .model, .engine, .epoch, .requestEnd,
  .immediate, .hardware, .endOfInput, .identifier, .groundEpoch] ++ timeTags

theorem sought_levels (place : Place) : ∀ kind ∈ Level.sought place.levels, kind ∈ firsts := by
  obtain ⟨region, tail, afterMetadata⟩ := place
  have hregion : ∀ kind ∈ region.admits, kind ∈ firsts := by
    cases region
    case declarations block => cases block <;> decide
    case request late => exact (by decide : ∀ kind ∈ .requestEnd :: timeTags, kind ∈ firsts)
    all_goals decide
  have hmetadata : ∀ kind ∈ Place.afterMetadataLevel.admits, kind ∈ firsts := by decide
  have htail : ∀ tail ∈ [Tail.declaration, .step, .request],
      ∀ level ∈ Place.tailLevel .start tail, ∀ kind ∈ level.admits, kind ∈ firsts := by decide
  cases afterMetadata with
  | true => exact hmetadata
  | false =>
    cases tail with
    | closed => exact hregion
    | command => exact List.forall_mem_cons.2 ⟨by decide, hregion⟩
    | declaration => exact htail .declaration (by decide) _ (List.mem_singleton.2 rfl)
    | step => exact htail .step (by decide) _ (List.mem_singleton.2 rfl)
    | request => exact htail .request (by decide) _ (List.mem_singleton.2 rfl)

end Line

/-! ## Items -/

/-- The tokens of an item have the form of their kinds. -/
def Item.Lexed : Item → Prop
  | .step item => item.line.Lexed
  | .request item => item.line.timing.Lexed ∧ ∀ s ∈ item.steps, s.line.Lexed
  | .section _ _ commands => ∀ c ∈ commands, c.line.Lexed
  | .block _ _ declarations => ∀ d ∈ declarations, d.Lexed
  | _ => True

namespace Outline

/-- Everything collected has tokens of the form of their kinds. -/
structure Pending.Lexed (p : Pending) : Prop where
  steps : ∀ s ∈ p.steps, s.line.Lexed
  declarations : ∀ d ∈ p.declarations, d.Lexed
  commands : ∀ c ∈ p.commands, c.line.Lexed
  items : ∀ item ∈ p.items, item.Lexed

theorem Pending.lexed_add {line : Line} {p : Pending} (hline : line.Lexed) (h : p.Lexed) :
    (p.add line).Lexed := by
  have hitem {item : Item} (hitem : item.Lexed) : ∀ i ∈ item :: p.items, i.Lexed :=
    List.forall_mem_cons.2 ⟨hitem, h.items⟩
  have hnone {α : Type} {P : α → Prop} : ∀ a ∈ ([] : List α), P a := List.forall_mem_nil P
  cases line with
  | blank => exact h
  | comment => exact ⟨h.steps, h.declarations, h.commands, hitem trivial⟩
  | id => exact ⟨h.steps, h.declarations, h.commands, hitem trivial⟩
  | loadAndGo => exact ⟨h.steps, h.declarations, h.commands, hitem trivial⟩
  | metadata => exact ⟨h.steps, h.declarations, h.commands, hitem trivial⟩
  | blockBegin => exact ⟨h.steps, hnone, h.commands, hitem h.declarations⟩
  | declaration =>
    exact ⟨h.steps, List.forall_mem_cons.2 ⟨hline, h.declarations⟩, h.commands, h.items⟩
  | blockEnd => exact ⟨h.steps, hnone, h.commands, h.items⟩
  | directive => exact ⟨h.steps, h.declarations, h.commands, h.items⟩
  | step line =>
    unfold add
    dsimp only
    split
    · exact ⟨List.forall_mem_cons.2 ⟨hline, h.steps⟩, h.declarations, h.commands, h.items⟩
    · exact ⟨h.steps, h.declarations, h.commands, hitem hline⟩
  | requestEnd => exact ⟨hnone, h.declarations, h.commands, h.items⟩
  | requestBegin => exact ⟨hnone, h.declarations, h.commands, hitem ⟨hline, h.steps⟩⟩
  | command =>
    exact ⟨h.steps, h.declarations, List.forall_mem_cons.2 ⟨hline, h.commands⟩, h.items⟩
  | sectionBegin => exact ⟨h.steps, h.declarations, hnone, hitem h.commands⟩

theorem lexed_ofLines {lines : List Line} (h : ∀ line ∈ lines, line.Lexed) :
    ∀ item ∈ ofLines lines, item.Lexed := by
  have hall : (lines.foldr Pending.add {}).Lexed := by
    induction lines with
    | nil =>
      exact ⟨List.forall_mem_nil _, List.forall_mem_nil _, List.forall_mem_nil _,
        List.forall_mem_nil _⟩
    | cons line lines ih =>
      obtain ⟨hline, hlines⟩ := List.forall_mem_cons.1 h
      exact Pending.lexed_add hline (ih hlines)
  exact hall.items

end Outline

end CommandSequence.Source
