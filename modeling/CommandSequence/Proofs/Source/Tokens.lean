import CommandSequence.Proofs.Source.Seams

/-!
# The tokens of constructs

The tokens that a construct keeps, in the order in which they are written. Items are made of lines,
so their tokens are those of lines, in the same order (`tokens_ofLines`).
-/

namespace CommandSequence.Source

/-! ## Pieces of lines

Of each construct the tokens of its parts, as its line has them; keywords and brackets are not
kept. -/

namespace Value

mutual

def tokens : Value → List Token
  | .scalar token => [token]
  | .array _ items => tokensOfItems items
  | .object _ members => tokensOfMembers members

def tokensOfItems : List Value → List Token
  | [] => []
  | item :: rest => tokens item ++ tokensOfItems rest

def tokensOfMembers : List (Token × Value) → List Token
  | [] => []
  | (key, value) :: rest => key :: (tokens value ++ tokensOfMembers rest)

end

end Value

def Argument.tokens : Argument → List Token
  | .single token => [token]
  | .group _ items => items

def StepLine.tokens (line : StepLine) : List Token :=
  line.tag :: line.subject :: (line.arguments.flatMap Argument.tokens ++ line.description.toList)

def Timing.tokens : Timing → List Token
  | .tag token => [token]
  | .groundEpoch token name => [token, name]

def RequestLine.tokens (line : RequestLine) : List Token :=
  line.timing.tokens ++ line.name :: line.description.toList

def MetadataLine.tokens (line : MetadataLine) : List Token :=
  line.key :: line.value.tokens

def Directive.tokens : Directive → List Token
  | .metadata line => line.tokens
  | .model line => [line.variableName, line.value, line.offset]
  | .engine _ number => [number]
  | .epoch _ name => [name]

def CommandLine.tokens (line : CommandLine) : List Token :=
  line.stem :: (line.arguments.flatMap Argument.tokens ++ line.description.toList)

def DeclarationItem.tokens (item : DeclarationItem) : List Token :=
  item.name :: item.details

def Line.tokens : Line → List Token
  | .comment text => [text]
  | .id _ name => [name]
  | .metadata line => line.tokens
  | .declaration item => item.tokens
  | .step line => line.tokens
  | .directive d => d.tokens
  | .requestBegin line => line.tokens
  | .command _ line => line.tokens
  | .blank | .loadAndGo _ | .blockBegin .. | .blockEnd _ | .requestEnd | .sectionBegin .. => []

/-! ## Items -/

def StepItem.tokens (item : StepItem) : List Token :=
  item.line.tokens ++ item.directives.flatMap Directive.tokens

def RequestItem.tokens (item : RequestItem) : List Token :=
  item.line.tokens ++ (item.steps.flatMap StepItem.tokens
    ++ item.metadata.flatMap MetadataLine.tokens)

def CommandItem.tokens (item : CommandItem) : List Token :=
  item.line.tokens ++ item.metadata.flatMap MetadataLine.tokens

def Item.tokens : Item → List Token
  | .comment text => [text]
  | .id _ name => [name]
  | .loadAndGo _ => []
  | .metadata line => line.tokens
  | .block _ _ declarations => declarations.flatMap DeclarationItem.tokens
  | .step item => item.tokens
  | .request item => item.tokens
  | .section _ _ commands => commands.flatMap CommandItem.tokens

namespace Outline

namespace Pending

/-- The tokens of what has been collected, in the order of the text. -/
def tokens (p : Pending) : List Token :=
  p.directives.flatMap Directive.tokens ++ (p.declarations.flatMap DeclarationItem.tokens
    ++ (p.commands.flatMap CommandItem.tokens ++ (p.steps.flatMap StepItem.tokens
    ++ ((p.requestMetadata.getD []).flatMap MetadataLine.tokens ++ p.items.flatMap Item.tokens))))

/-- Where nothing waits, the tokens are those of the items. -/
theorem tokens_of_idle {p : Pending} (h : p.Idle) : p.tokens = p.items.flatMap Item.tokens := by
  simp [tokens, h.directives, h.requestMetadata, h.steps, h.declarations, h.commands]

/-- Steps wait for a line only inside a request. -/
def Encloses (p : Pending) : Prop :=
  p.requestMetadata = none → p.steps = []

theorem encloses_add {p : Pending} (line : Line) (h : p.Encloses) : (p.add line).Encloses := by
  cases line with
  | requestBegin => exact fun _ => rfl
  | requestEnd => exact fun _ => rfl
  | step line =>
    unfold add
    dsimp only
    split
    · next hsome => exact fun hnone => by simp [hsome] at hnone
    · exact h
  | _ => exact h

end Pending

theorem metadataOf_tokens (ds : List Directive) :
    List.Sublist ((metadataOf ds).flatMap MetadataLine.tokens) (ds.flatMap Directive.tokens) := by
  induction ds with
  | nil => exact .slnil
  | cons d ds ih =>
    cases d with
    | metadata line => exact (List.Sublist.refl _).append ih
    | _ => exact ih.trans (List.sublist_append_right ..)

end Outline

open Outline (Pending)

variable {p p' : Place} {line : Line} {lines : List Line} {c c' : Cursor} {q : Pending}

/-- A line adds its own tokens in front of those below it. -/
theorem Place.Step.tokens_add (h : p.Step line p') (hq : p'.Collects q) (hsteps : q.Encloses) :
    List.Sublist (q.add line).tokens (line.tokens ++ q.tokens) := by
  -- where nothing is open, a line makes up an item of its own
  have hitem {item : Item} {p : Place} (hp : p.Collects q) (hfront : p.region.isFront = true)
      (htail : p.tail.takes = []) (hitem : item.tokens = line.tokens) :
      List.Sublist (q.addItem item).tokens (line.tokens ++ q.tokens) := by
    have hidle := hp.idle hfront htail
    have hadded : (q.addItem item).Idle :=
      ⟨hidle.directives, hidle.requestMetadata, hidle.steps, hidle.declarations, hidle.commands⟩
    rw [Pending.tokens_of_idle hidle, Pending.tokens_of_idle hadded, ← hitem]
    exact List.Sublist.refl _
  cases h with
  | blank => exact List.Sublist.refl _
  | comment => exact hitem hq rfl rfl rfl
  | id => exact hitem hq rfl rfl rfl
  | loadAndGo => exact hitem hq rfl rfl rfl
  | metadata => exact hitem hq rfl rfl rfl
  | blockBegin =>
    simp [Pending.add, Pending.addItem, Pending.tokens, Item.tokens, Line.tokens, hq.directives rfl,
      hq.requestMetadata rfl, hq.steps rfl, hq.commands rfl]
  | declaration => simp [Pending.add, Pending.tokens, Line.tokens, hq.directives rfl]
  | blockEnd => exact (List.Sublist.refl _).append (List.sublist_append_right ..)
  | step _ _ line =>
    obtain ⟨hblock, hsection, -, -⟩ := Region.of_bodyRegion p.region
    have hdeclarations := hq.declarations hblock
    have hcommands := hq.commands hsection
    unfold Pending.add
    dsimp only
    split
    · simp [Pending.tokens, Line.tokens, StepItem.tokens, hdeclarations, hcommands]
    · next hnone =>
      simp [Pending.addItem, Pending.tokens, Line.tokens, Item.tokens, StepItem.tokens,
        hdeclarations, hcommands, hsteps hnone, hnone]
  | directive => simp [Pending.add, Pending.tokens, Line.tokens]
  | requestBegin =>
    simp [Pending.add, Pending.addItem, Pending.tokens, Line.tokens, Item.tokens,
      RequestItem.tokens, hq.directives rfl, hq.declarations rfl, hq.commands rfl]
  | requestEnd =>
    obtain ⟨hblock, hsection⟩ := Region.of_requestEnd p.region
    simp only [Pending.add, Pending.tokens, Line.tokens, hq.declarations hblock,
      hq.commands hsection, List.flatMap_nil, List.nil_append, Option.getD_some]
    refine (Outline.metadataOf_tokens q.directives).append ?_
    exact (List.sublist_append_right ..).trans (List.sublist_append_right ..)
  | sectionBegin _ _ _ kind =>
    have hregion : kind.region.isRequest = false ∧ kind.region.isBlock = false := by
      cases kind <;> exact ⟨rfl, rfl⟩
    simp [Pending.add, Pending.addItem, Pending.tokens, Item.tokens, Line.tokens, hq.directives rfl,
      hq.requestMetadata hregion.1, hq.steps hregion.1, hq.declarations hregion.2]
  | @command kind hkind line =>
    have hblock : p.region.isBlock = false := by rw [hkind]; cases kind <;> rfl
    simp only [Pending.add, Pending.tokens, Line.tokens, hq.declarations hblock, List.flatMap_nil,
      List.nil_append, List.flatMap_cons, CommandItem.tokens, List.append_assoc]
    exact (List.Sublist.refl _).append ((Outline.metadataOf_tokens q.directives).append
      (List.Sublist.refl _))

/-- The lines of a run add their tokens in front of those below them. -/
theorem Line.Run.tokens_foldr (h : Line.Run p c lines p' c') (hq : p'.Collects q)
    (hsteps : q.Encloses) :
    (lines.foldr Pending.add q).Encloses ∧
      List.Sublist (lines.foldr Pending.add q).tokens (lines.flatMap Line.tokens ++ q.tokens) := by
  induction h with
  | nil => exact ⟨hsteps, List.Sublist.refl _⟩
  | @cons p p₁ p' c c₁ c' line lines hline hrun ih =>
    obtain ⟨hencloses, hsublist⟩ := ih hq
    refine ⟨Pending.encloses_add line hencloses, ?_⟩
    rw [List.flatMap_cons, List.append_assoc]
    exact ((Line.step_of_read hline).tokens_add (hrun.collects hq) hencloses).trans
      ((List.Sublist.refl _).append hsublist)

/-- The tokens of the items of a text are tokens of its lines, in the same order. -/
theorem tokens_ofLines {text : List Char} (h : readLines text = .ok lines) :
    List.Sublist ((Outline.ofLines lines).flatMap Item.tokens) (lines.flatMap Line.tokens) := by
  obtain ⟨p, c, hrun, -⟩ := Line.exists_run h
  have hsublist := (hrun.tokens_foldr Place.collects_nil fun _ => rfl).2
  have hnone : ({} : Pending).tokens = [] := rfl
  rw [hnone, List.append_nil] at hsublist
  refine List.Sublist.trans ?_ hsublist
  unfold Pending.tokens
  simp only [← List.append_assoc]
  exact List.sublist_append_right ..

end CommandSequence.Source
