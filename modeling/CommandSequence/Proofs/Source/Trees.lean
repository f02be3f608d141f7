import CommandSequence.Proofs.Source.Readers

/-!
# The trees of texts

The lines of a text make up items, whose trees are grammatical if the lines are
(`Outline.grammatical_ofLines`). So the tree of a text that is read is grammatical, its tokens are
pieces of the text, and a text that is not read names what was expected (`Outline.ends_read`). The
tokens of its items have the form of their kinds (`Outline.lexed_of_read`).
-/

namespace CommandSequence.Source

open CommandSequence.Source.Tree (IsCommandLine)

namespace Tree

theorem label_ofItem (item : Item) : (ofItem item).label ∈ itemRules := by
  cases item with
  | block position block declarations => cases block <;> simp [ofItem, label, itemRules]
  | «section» position kind commands => cases kind <;> simp [ofItem, label, itemRules]
  | _ => simp [ofItem, wrapped, ofMetadata, ofStep, ofRequest, label, itemRules]

theorem grammatical_block {position : Position} {block : Block}
    {declarations : List DeclarationItem}
    (h : ∀ d ∈ declarations, (ofDeclaration d).Grammatical) :
    (ofItem (.block position block declarations)).Grammatical := by
  have hlabels : ∀ s ∈ (declarations.map ofDeclaration).map label,
      s ∈ [Label.rule "variable_declaration"] := by simp [ofDeclaration, label]
  cases block <;> exact .node (Label.mem_many hlabels) (List.forall_mem_map.2 h)

theorem grammatical_section {position : Position} {kind : Section} {commands : List CommandItem}
    (h : ∀ c ∈ commands, (ofCommand kind c).Grammatical) :
    (ofItem (.section position kind commands)).Grammatical := by
  cases kind with
  | immediate =>
    refine .node (Label.mem_many ?_) (List.forall_mem_map.2 h)
    simp [ofCommand, label]
  | hardware =>
    refine .node (Label.mem_many ?_) (List.forall_mem_map.2 h)
    simp [ofCommand, label]

end Tree

namespace Outline

/-- Everything collected is grammatical. -/
structure Pending.Grammatical (p : Pending) : Prop where
  directives : ∀ d ∈ p.directives, (Tree.ofDirective d).Grammatical
  requestMetadata : ∀ m ∈ p.requestMetadata.getD [], (Tree.ofMetadata m).Grammatical
  steps : ∀ s ∈ p.steps, (Tree.ofStep s).Grammatical
  declarations : ∀ d ∈ p.declarations, (Tree.ofDeclaration d).Grammatical
  commands : ∀ c ∈ p.commands, ∀ kind, (Tree.ofCommand kind c).Grammatical
  items : ∀ item ∈ p.items, (Tree.ofItem item).Grammatical

theorem grammatical_metadataOf {ds : List Directive}
    (h : ∀ d ∈ ds, (Tree.ofDirective d).Grammatical) :
    ∀ m ∈ metadataOf ds, (Tree.ofMetadata m).Grammatical := by
  intro m hmem
  obtain ⟨d, hd, heq⟩ := List.mem_filterMap.1 hmem
  cases d with
  | metadata line => cases heq; exact h _ hd
  | _ => cases heq

theorem Pending.grammatical_add {line : Line} {p : Pending} (hline : line.Grammatical)
    (h : p.Grammatical) : (p.add line).Grammatical := by
  have hitem {item : Item} (hitem : (Tree.ofItem item).Grammatical) :
      ∀ i ∈ item :: p.items, (Tree.ofItem i).Grammatical :=
    List.forall_mem_cons.2 ⟨hitem, h.items⟩
  have hnone {α : Type} {P : α → Prop} : ∀ a ∈ ([] : List α), P a := List.forall_mem_nil P
  obtain ⟨hdirectives, hmetadata, hsteps, hdeclarations, hcommands, hitems⟩ := h
  -- Lines are added from the last to the first: what belongs to a line has been collected before
  -- it, and the line that claims it empties the list.
  cases line with
  | blank => exact ⟨hdirectives, hmetadata, hsteps, hdeclarations, hcommands, hitems⟩
  | comment text =>
    have hwrapped : (Tree.wrapped "file_comment" text).Grammatical := by
      refine Tree.grammatical_wrapped hline ?_
      rw [List.mem_singleton.1 hline.kind]
      exact Tree.Label.mem_one (List.mem_singleton.2 rfl)
    exact ⟨hdirectives, hmetadata, hsteps, hdeclarations, hcommands, hitem hwrapped⟩
  | id position name =>
    have hid : (Tree.ofItem (.id position name)).Grammatical :=
      .node (Tree.Label.mem_one (Tree.label_leaf hline))
        (by simpa using Tree.grammatical_leaf hline)
    exact ⟨hdirectives, hmetadata, hsteps, hdeclarations, hcommands, hitem hid⟩
  | loadAndGo position =>
    have hload : (Tree.ofItem (.loadAndGo position)).Grammatical := .node rfl hnone
    exact ⟨hdirectives, hmetadata, hsteps, hdeclarations, hcommands, hitem hload⟩
  | metadata line => exact ⟨hdirectives, hmetadata, hsteps, hdeclarations, hcommands, hitem hline⟩
  | blockBegin =>
    exact ⟨hdirectives, hmetadata, hsteps, hnone, hcommands,
      hitem (Tree.grammatical_block hdeclarations)⟩
  | declaration =>
    exact ⟨hdirectives, hmetadata, hsteps, List.forall_mem_cons.2 ⟨hline, hdeclarations⟩, hcommands,
      hitems⟩
  | blockEnd => exact ⟨hdirectives, hmetadata, hsteps, hnone, hcommands, hitems⟩
  | directive =>
    exact ⟨List.forall_mem_cons.2 ⟨hline, hdirectives⟩, hmetadata, hsteps, hdeclarations, hcommands,
      hitems⟩
  | step line =>
    have hstep : (Tree.ofStep ⟨line, p.directives⟩).Grammatical := hline p.directives hdirectives
    unfold add
    dsimp only
    split
    · exact ⟨hnone, hmetadata, List.forall_mem_cons.2 ⟨hstep, hsteps⟩, hdeclarations,
        hcommands, hitems⟩
    · exact ⟨hnone, hmetadata, hsteps, hdeclarations, hcommands, hitem hstep⟩
  | requestEnd =>
    exact ⟨hnone, grammatical_metadataOf hdirectives, hnone, hdeclarations, hcommands, hitems⟩
  | requestBegin line =>
    exact ⟨hnone, hnone, hnone, hdeclarations, hcommands, hitem (hline p.steps _ hsteps hmetadata)⟩
  | command kind line =>
    have hcommand (kind : Section) :
        (Tree.ofCommand kind ⟨line, metadataOf p.directives⟩).Grammatical :=
      hline kind _ (grammatical_metadataOf hdirectives)
    exact ⟨hnone, hmetadata, hsteps, hdeclarations,
      List.forall_mem_cons.2 ⟨hcommand, hcommands⟩, hitems⟩
  | sectionBegin position kind =>
    exact ⟨hdirectives, hmetadata, hsteps, hdeclarations, hnone,
      hitem (Tree.grammatical_section fun c hc => hcommands c hc kind)⟩

theorem grammatical_ofLines {lines : List Line} (h : ∀ line ∈ lines, line.Grammatical) :
    ∀ item ∈ ofLines lines, (Tree.ofItem item).Grammatical := by
  have hall : (lines.foldr Pending.add {}).Grammatical := by
    induction lines with
    | nil =>
      exact ⟨List.forall_mem_nil _, List.forall_mem_nil _, List.forall_mem_nil _,
        List.forall_mem_nil _, List.forall_mem_nil _, List.forall_mem_nil _⟩
    | cons line lines ih =>
      obtain ⟨hline, hlines⟩ := List.forall_mem_cons.1 h
      exact Pending.grammatical_add hline (ih hlines)
  exact hall.items

/-- A text is read by taking tokens from its front, in the order of which the items keep them; its
tree is then grammatical. -/
theorem ends_read (text : List Char) :
    Ends (Cursor.ofText (Lines.terminate text)).Stops (read text) fun outline =>
      outline.tree.Grammatical ∧ ∃ taken c, (Cursor.ofText (Lines.terminate text)).Takes taken c ∧
        (outline.items.flatMap Item.tokens).Sublist taken := by
  have hlines := ends_readLines (Lines.terminate text)
  unfold read
  dsimp only
  cases hread : readLines (Lines.terminate text) with
  | error e => exact .throw (hlines.error e hread)
  | ok lines =>
    obtain ⟨taken, c, htaken, hsublist, hall⟩ := hlines.result lines hread
    refine .ok ⟨.node (Tree.Label.mem_many ?_) ?_, taken, c, htaken,
      (tokens_ofLines hread).trans hsublist⟩
    · simpa using fun item _ => Tree.label_ofItem item
    · simpa using grammatical_ofLines fun line hmem => (hall line hmem).1

/-- Every item of a text that is read has tokens of the form of their kinds. -/
theorem lexed_of_read {text : List Char} {outline : Outline} (h : read text = .ok outline) :
    ∀ item ∈ outline.items, item.Lexed := by
  obtain ⟨lines, hlines, heq⟩ := bind_eq_ok.1 h
  cases heq
  obtain ⟨_, _, _, _, hall⟩ := (ends_readLines _).result lines hlines
  exact lexed_ofLines fun line hmem => (hall line hmem).2

end Outline

end CommandSequence.Source
