import CommandSequence.Proofs.Document.OfOutline
import CommandSequence.Proofs.Document.StepContents
import CommandSequence.Proofs.Source.Declarations
import CommandSequence.Proofs.Source.Trees

/-!
# Documents hold what their trees say

The document of a text is the one that its syntax tree says (`Document.documentOf_ofText`): nothing
is lost, invented or put in another order. Each item has the part that its tree says
(`Contents.partOf`); the groups of a document are picked from the parts in the same way as the nodes
of a rule from the tree.
-/

namespace CommandSequence

namespace Contents

open Source (Token Tree Terminal)
open OfOutline (string word Part MeansOf)

/-! ## Requests -/

theorem timingOf {validate : Bool} (t : Source.Timing) :
    Yields (OfOutline.timing validate t)
      fun m => TimingOf (Tree.ofTiming t) m.getLeft? m.getRight? := by
  cases t with
  | tag token =>
    intro m hm
    obtain ⟨time, htime, rfl⟩ := map_eq_ok.1 hm
    exact .time (timeOf token time htime)
  | groundEpoch token name =>
    refine (stringOf name).bind fun called hcalled => (tagOf token).bind fun delta hdelta => ?_
    intro m hm
    obtain ⟨g, hg, rfl⟩ := map_eq_ok.1 hm
    obtain ⟨-, rfl⟩ := OfOutline.groundEpoch_eq_ok.1 hg
    exact .groundEpoch hcalled (filledOf called) hdelta

theorem has_request (r : Request) : r.toJson.has "metadata" = !r.metadata.isEmpty := by
  unfold Json.Value.has Request.toJson
  cases r.metadata <;> simp [List.lookup_append]

/-- The request of a line, its steps and its metadata is the one of its tree. -/
theorem requestOf {validate : Bool} {item : Source.RequestItem}
    (h : (Tree.ofRequest item).Grammatical) :
    Yields (OfOutline.request validate item) (RequestOf (Tree.ofRequest item)) := by
  have hrest := fun child hchild => Tree.grammatical_children h child
    (List.mem_cons_of_mem _ (List.mem_cons_of_mem _ hchild))
  have hsteps : ∀ s ∈ item.steps, (Tree.ofStep s).Grammatical := fun s hs =>
    hrest _ (List.mem_append_left _ (List.mem_append_right _ (List.mem_map_of_mem hs)))
  have hlines : ∀ line ∈ item.metadata, (Tree.ofMetadata line).Grammatical := fun line hline =>
    hrest _ (List.mem_append_right _ (List.mem_map_of_mem hline))
  intro r hr
  obtain ⟨moment, hmoment, hr⟩ := bind_eq_ok.1 hr
  obtain ⟨name, hname, hr⟩ := bind_eq_ok.1 hr
  obtain ⟨steps, hread, hr⟩ := bind_eq_ok.1 hr
  obtain ⟨notes, hnotes, hr⟩ := bind_eq_ok.1 hr
  obtain ⟨hnodes, hmetadata⟩ := Tree.nodes_ofRequest item
  have hentries : MetadataOf ((Tree.ofRequest item).nodes "metadata_entry") notes := by
    rw [hmetadata]
    exact metadataOf hlines notes hnotes
  cases hempty : steps.isEmpty with
  | true => rw [hempty] at hr; cases hr
  | false =>
    rw [hempty] at hr
    cases hr
    exact {
      rule := rfl
      line := ⟨_, _, _, rfl, timingOf _ _ hmoment, stringOf _ _ hname⟩
      description := by
        rw [Tree.tokens_ofRequest, List.drop_one, List.tail_cons, Option.head?_toList]
        exact descriptionOf _
      steps := by
        rw [hnodes]
        exact forall₂_mapM (fun s hs => stepOf (hsteps s hs)) steps hread
      filled := List.isEmpty_eq_false_iff.1 hempty
      metadata := hentries
      metadata_written := groupOf (has_request _) (metadata_nil_iff hentries) }

/-! ## Sections -/

theorem has_immediate (c : ImmediateCommand) :
    c.toJson.has "args" = true ∧ c.toJson.has "metadata" = !c.metadata.isEmpty := by
  unfold Json.Value.has ImmediateCommand.toJson
  constructor
  · simp [List.lookup_append]
  · cases c.metadata <;> simp [List.lookup_append]

theorem has_hardware (c : HardwareCommand) :
    c.toJson.has "metadata" = !c.metadata.isEmpty := by
  unfold Json.Value.has HardwareCommand.toJson
  cases c.metadata <;> simp [List.lookup_append]

theorem stemOf (record : String) (token : Token) :
    Yields (OfOutline.stem record token) (WordOf token) := by
  unfold OfOutline.stem
  split
  · exact .error
  · exact .ok (wordOf token)

theorem commandMetadata {kind : Source.Section} {item : Source.CommandItem}
    (h : (Tree.ofCommand kind item).Grammatical) :
    Yields (OfOutline.metadata item.metadata)
      (MetadataOf ((Tree.ofCommand kind item).nodes "metadata_entry")) := by
  have hlines : ∀ line ∈ item.metadata, (Tree.ofMetadata line).Grammatical := by
    intro line hline
    have hmem := List.mem_map_of_mem (f := Tree.ofMetadata) hline
    rw [← Tree.nodes_ofCommand kind] at hmem
    exact Tree.grammatical_children h _ (List.mem_of_mem_filter hmem)
  rw [Tree.nodes_ofCommand]
  exact metadataOf hlines

theorem commandDescription (kind : Source.Section) (item : Source.CommandItem) :
    DescriptionOf ((Tree.ofCommand kind item).tokens.drop 1).head?
      (OfOutline.description item.line.description) := by
  rw [Tree.tokens_ofCommand, List.drop_one, List.tail_cons, Option.head?_toList]
  exact descriptionOf _

theorem immediateOf {item : Source.CommandItem} (h : (Tree.ofCommand .immediate item).Grammatical) :
    Yields (OfOutline.immediateCommand item) (ImmediateOf (Tree.ofCommand .immediate item)) := by
  have harguments := Tree.grammatical_children h (Tree.ofArguments item.line.arguments)
    (List.mem_cons_of_mem _ List.mem_cons_self)
  refine (argumentsOf harguments).bind fun given hgiven =>
    (commandMetadata h).bind fun notes hnotes => (stemOf _ _).bind fun stem hstem => .ok ?_
  exact {
    rule := rfl
    line := ⟨_, _, _, rfl, hstem, hgiven⟩
    description := commandDescription .immediate item
    metadata := hnotes
    arguments_written := (has_immediate _).1
    metadata_written := groupOf (has_immediate _).2 (metadata_nil_iff hnotes) }

theorem hardwareOf {item : Source.CommandItem} (h : (Tree.ofCommand .hardware item).Grammatical) :
    Yields (OfOutline.hardwareCommand item) (HardwareOf (Tree.ofCommand .hardware item)) := by
  refine (commandMetadata h).bind fun notes hnotes => (stemOf _ _).bind fun stem hstem => .ok ?_
  exact {
    rule := rfl
    line := ⟨_, _, rfl, hstem⟩
    description := commandDescription .hardware item
    metadata := hnotes
    metadata_written := groupOf (has_hardware _) (metadata_nil_iff hnotes) }

/-! ## Declarations -/

theorem keyword_ne_of_ofKeyword? {name : String} (h : VariableType.ofKeyword? name = none)
    (t : VariableType) : t.keyword ≠ name := by
  have hmem : t ∈ VariableType.all := by cases t <;> decide
  simpa using List.find?_eq_none.1 h t hmem

theorem typingOf (name : String) {words : List Token} (hlength : words.length ≤ 2) :
    Yields (OfOutline.typing name words) fun found => TypingOf words found.1 found.2 := by
  match words with
  | [] => exact .ok .none
  | [only] =>
    cases hfound : VariableType.ofKeyword? (word only) with
    | some t =>
      simp only [OfOutline.typing, hfound]
      exact .ok (.type (Declaration.keyword_of_ofKeyword? hfound ▸ wordOf only))
    | none =>
      simp only [OfOutline.typing, hfound]
      exact .ok (.enumeration (wordOf only) (keyword_ne_of_ofKeyword? hfound))
  | [type, enumeration] =>
    cases hfound : VariableType.ofKeyword? (word type) with
    | some t =>
      simp only [OfOutline.typing, hfound]
      exact .ok (.both (Declaration.keyword_of_ofKeyword? hfound ▸ wordOf type)
        (wordOf enumeration))
    | none =>
      simp only [OfOutline.typing, hfound]
      exact .error

theorem read?_of_number? {text : List Char} {found : Option Number}
    (h : OfOutline.number? text = .ok found) : Number.read? text = .ok found := by
  unfold OfOutline.number? at h
  split at h
  · next hread => cases h; exact hread
  · cases h

theorem rangeOf (position : Source.Position) (part : List Char) :
    Yields (OfOutline.range position part) (RangeOf part) := by
  intro r hr
  obtain ⟨low, hlow, hr⟩ := bind_eq_ok.1 hr
  obtain ⟨high, hhigh, hr⟩ := bind_eq_ok.1 hr
  have hlow := read?_of_number? hlow
  have hhigh := read?_of_number? hhigh
  cases low with
  | none => cases hr
  | some low =>
    cases high with
    | none => cases hr
    | some high =>
      cases hr
      cases hafter : (OfOutline.splitAtDots part).2 with
      | none =>
        -- What does not follow any points is the empty text, which spells no number.
        have hempty : Number.read? (Character.trimBoth Character.isBlank []) = .ok none := rfl
        rw [hafter] at hhigh
        cases hempty.symm.trans hhigh
      | some after =>
        have hpart := ReadBack.append_splitAtDots part
        rw [hafter] at hhigh hpart
        exact ⟨_, after, hpart.symm, hlow, hhigh⟩

theorem allowableValueOf (part : List Char) :
    Yields (OfOutline.allowableValue part) (AllowableValueOf part) := by
  intro v hv
  obtain ⟨found, hfound, hv⟩ := bind_eq_ok.1 hv
  have hread := read?_of_number? hfound
  cases found with
  | some n => cases hv; exact .number hread
  | none => cases hv; exact .text hread rfl

theorem rangesOf (position : Source.Position) (list : String) (more : List String) :
    Yields (OfOutline.ranges position (list :: more)) (RangesOf list) := by
  unfold OfOutline.ranges RangesOf
  dsimp only
  by_cases hempty : list = ""
  · rw [if_pos (String.isEmpty_iff.2 hempty)]
    exact .ok (by rw [if_pos hempty])
  · rw [if_neg fun h => hempty (String.isEmpty_iff.1 h)]
    refine (Yields.mapM fun part _ => rangeOf position part).mono fun ranges h => ?_
    rw [if_neg hempty]
    exact h

/-- The ranges and values of at most two strings. -/
theorem listsOf (position : Source.Position) {lists : List String} (hlength : lists.length ≤ 2)
    {ranges : List Range} {values : List AllowableValue}
    (hranges : OfOutline.ranges position lists = .ok ranges)
    (hvalues : OfOutline.allowableValues lists = .ok values) : ListsOf lists ranges values := by
  match lists with
  | [] =>
    cases hranges
    cases hvalues
    exact .none
  | [list] =>
    cases hvalues
    exact .ranges (rangesOf position list [] ranges hranges)
  | [list, other] =>
    exact .both (rangesOf position list [other] ranges hranges)
      (Yields.mapM (fun part _ => allowableValueOf part) values hvalues)

theorem has_declaration (d : Declaration) :
    d.toJson.has "allowable_ranges" = !d.ranges.isEmpty ∧
      d.toJson.has "allowable_values" = !d.values.isEmpty := by
  unfold Json.Value.has Declaration.toJson
  constructor
  · cases d.ranges <;> simp [List.lookup_append]
  · cases d.values <;> simp [List.lookup_append]

theorem declarationOf {item : Source.DeclarationItem} (h : (Tree.ofDeclaration item).Grammatical) :
    Yields (OfOutline.declaration item) (DeclarationOf (Tree.ofDeclaration item)) := by
  obtain ⟨words, strings, hdetails, ⟨hwords, hword⟩, hstrings, hstring⟩ := Tree.exists_details h
  have hquoted : item.details.filter (·.kind == .string) = strings := by
    rw [hdetails, List.filter_append, List.filter_eq_nil_iff.2, List.filter_eq_self.2,
      List.nil_append]
    · exact fun token htoken => beq_iff_eq.2 (hstring token htoken)
    · exact fun token htoken => by simp [hword token htoken]
  have hbare : item.details.filter (·.kind != .string) = words := by
    rw [hdetails, List.filter_append, List.filter_eq_self.2, List.filter_eq_nil_iff.2,
      List.append_nil]
    · exact fun token htoken => by simp [hstring token htoken]
    · exact fun token htoken => by simp [hword token htoken]
  intro d hd
  obtain ⟨lists, hlists, hd⟩ := bind_eq_ok.1 hd
  obtain ⟨⟨type, enumName⟩, htyping, hd⟩ := bind_eq_ok.1 hd
  obtain ⟨allowed, hallowed, hd⟩ := bind_eq_ok.1 hd
  obtain ⟨values, hvalues, hd⟩ := bind_eq_ok.1 hd
  cases hd
  have hread := Yields.mapM (fun token _ => stringOf token) lists hlists
  have hlength : lists.length ≤ 2 := by
    rw [← hread.length_eq, hquoted]
    exact hstrings
  exact {
    rule := rfl
    line := ⟨_, _, _, rfl, wordOf _, typingOf _ (hbare ▸ hwords) _ htyping, hread,
      listsOf _ hlength hallowed hvalues⟩
    ranges_written := groupOf (has_declaration _).1 Iff.rfl
    values_written := groupOf (has_declaration _).2 Iff.rfl }

/-! ## Items -/

/-- The rule of a block. -/
def blockRule : Source.Block → Literal
  | .parameters => "parameter_block"
  | .locals => "local_block"

/-- The part is the one that the tree of an item says. -/
def PartOf (tree : Tree) : Part → Prop
  | .comment => tree.isOf "file_comment" = true
  | .id name => ∃ place token,
    tree = .node "id_declaration" place [.leaf token] ∧ StringOf token name
  | .metadata key value => HeaderEntryOf tree (key, value)
  | .declarations block list => tree.isOf (blockRule block) = true ∧
    List.Forall₂ DeclarationOf (tree.nodes "variable_declaration") list
  | .step s => StepOf tree s
  | .request r => RequestOf tree r
  | .immediate commands => tree.isOf "immediate_block" = true ∧
    List.Forall₂ ImmediateOf (tree.nodes "immediate_command") commands
  | .hardware commands => tree.isOf "hardware_block" = true ∧
    List.Forall₂ HardwareOf (tree.nodes "hardware_command") commands

/-- The rules of the trees of a part. -/
def partRules : Part → List Literal
  | .comment => ["file_comment"]
  | .id _ => ["id_declaration"]
  | .metadata .. => ["metadata_entry", "load_and_go"]
  | .declarations block _ => [blockRule block]
  | .step _ => ["step"]
  | .request _ => ["request"]
  | .immediate _ => ["immediate_block"]
  | .hardware _ => ["hardware_block"]

theorem forall₂_nodes_of_mapM {α β : Type} {rule outer : Literal} {place : Option Source.Position}
    {tree : α → Tree} {R : Tree → β → Prop} {f : α → Except Fault β} {items : List α}
    (h : ∀ t ∈ items.map tree, t.Grammatical) (hrule : ∀ a, (tree a).isOf rule = true)
    (hf : ∀ a, (tree a).Grammatical → Yields (f a) (R (tree a))) :
    Yields (items.mapM f)
      (List.Forall₂ R ((Source.Tree.node outer place (items.map tree)).nodes rule)) := by
  have hnodes : (Source.Tree.node outer place (items.map tree)).nodes rule = items.map tree :=
    Tree.filter_isOf_map hrule items
  rw [hnodes]
  exact forall₂_mapM fun a ha => hf a (h _ (List.mem_map_of_mem ha))

/-- What an item means is the part that its tree says. -/
theorem partOf {validate : Bool} {item : Source.Item} {p : Part}
    (h : (Tree.ofItem item).Grammatical) (hp : MeansOf validate item p) :
    PartOf (Tree.ofItem item) p := by
  have hchildren := Tree.grammatical_children h
  cases hp with
  | comment text => exact rfl
  | id hs => exact ⟨_, _, rfl, stringOf _ _ hs⟩
  | loadAndGo position => exact .loadAndGo _
  | metadata hentry => exact .metadata (entryOf h _ hentry)
  | @declarations position block items list hlist _ =>
    cases block with
    | parameters =>
      exact ⟨rfl, forall₂_nodes_of_mapM hchildren (fun _ => rfl) (fun _ => declarationOf) _ hlist⟩
    | locals =>
      exact ⟨rfl, forall₂_nodes_of_mapM hchildren (fun _ => rfl) (fun _ => declarationOf) _ hlist⟩
  | step hs => exact stepOf h _ hs
  | request hr => exact requestOf h _ hr
  | immediate hcommands _ =>
    exact ⟨rfl, forall₂_nodes_of_mapM hchildren (fun _ => rfl) (fun _ => immediateOf) _ hcommands⟩
  | hardware hcommands _ =>
    exact ⟨rfl, forall₂_nodes_of_mapM hchildren (fun _ => rfl) (fun _ => hardwareOf) _ hcommands⟩

theorem exists_rule {tree : Tree} {p : Part} (h : PartOf tree p) :
    ∃ rule ∈ partRules p, tree.isOf rule = true := by
  cases p with
  | comment => exact ⟨_, List.mem_singleton.2 rfl, h⟩
  | id name =>
    obtain ⟨place, token, rfl, -⟩ := h
    exact ⟨_, List.mem_singleton.2 rfl, rfl⟩
  | metadata key value =>
    cases h with
    | metadata h => cases h; exact ⟨_, List.mem_cons_self, rfl⟩
    | loadAndGo => exact ⟨_, List.mem_cons_of_mem _ List.mem_cons_self, rfl⟩
  | declarations block list => exact ⟨_, List.mem_singleton.2 rfl, h.1⟩
  | step s => exact ⟨_, List.mem_singleton.2 rfl, h.rule⟩
  | request r => exact ⟨_, List.mem_singleton.2 rfl, h.rule⟩
  | immediate commands => exact ⟨_, List.mem_singleton.2 rfl, h.1⟩
  | hardware commands => exact ⟨_, List.mem_singleton.2 rfl, h.1⟩

theorem rule_eq {tree : Tree} {rule other : Literal} (h : tree.isOf rule = true) :
    tree.isOf other = (rule == other) := by
  cases tree with
  | leaf => cases h
  | node r place children =>
    rw [← beq_iff_eq.1 h]
    rfl

/-! ## Documents -/

variable {trees : List Tree} {parts : List Part}

/-- The nodes of some rules correspond to what is picked from the parts of these rules. -/
theorem forall₂_parts {γ : Type} {S : Tree → γ → Prop} {p : Tree → Bool} {q : Literal → Bool}
    {pick : Part → Option γ} (h : List.Forall₂ PartOf trees parts)
    (hp : ∀ (tree : Tree) rule, tree.isOf rule = true → p tree = q rule)
    (hrule : ∀ part, ∀ rule ∈ partRules part, (pick part).isSome = q rule)
    (hpick : ∀ tree part c, PartOf tree part → pick part = some c → S tree c) :
    List.Forall₂ S (trees.filter p) (parts.filterMap pick) := by
  refine forall₂_filter h (fun tree part hpart => ?_) hpick
  obtain ⟨rule, hmem, hof⟩ := exists_rule hpart
  rw [hp tree rule hof, hrule part rule hmem]

/-- The nodes inside blocks or sections correspond to what the parts of the rule add. -/
theorem forall₂_inside {γ : Type} {S : Tree → γ → Prop} {outer rule : Literal} {add : Part → List γ}
    {place : Option Source.Position} (h : List.Forall₂ PartOf trees parts)
    (hno : ∀ part, outer ∉ partRules part → add part = [])
    (hadd : ∀ tree part, PartOf tree part → outer ∈ partRules part →
      tree.isOf outer = true ∧ List.Forall₂ S (tree.nodes rule) (add part)) :
    List.Forall₂ S (inside outer rule (.node "start" place trees)) (parts.flatMap add) := by
  unfold inside
  rw [Tree.nodes, Tree.children]
  induction h with
  | nil => exact .nil
  | @cons tree part trees parts hpart _ ih =>
    rw [List.flatMap_cons]
    by_cases hmem : outer ∈ partRules part
    · obtain ⟨hof, hnodes⟩ := hadd tree part hpart hmem
      rw [List.filter_cons_of_pos hof, List.flatMap_cons]
      exact List.rel_append hnodes ih
    · obtain ⟨found, hfound, hof⟩ := exists_rule hpart
      have hother : tree.isOf outer ≠ true := by
        rw [rule_eq hof]
        exact fun h => hmem (beq_iff_eq.1 h ▸ hfound)
      rw [List.filter_cons_of_neg hother, hno part hmem]
      exact ih

theorem has_document (d : Document) : d.toJson.has "metadata" = true ∧
    d.toJson.has "parameters" = !d.parameters.isEmpty ∧
    d.toJson.has "locals" = !d.locals.isEmpty ∧ d.toJson.has "steps" = !d.steps.isEmpty ∧
    d.toJson.has "immediate_commands" = !d.immediateCommands.isEmpty ∧
    d.toJson.has "hardware_commands" = !d.hardwareCommands.isEmpty ∧
    d.toJson.has "requests" = !d.requests.isEmpty := by
  unfold Json.Value.has Document.toJson
  refine ⟨?_, ?_, ?_, ?_, ?_, ?_, ?_⟩
  · simp [List.lookup_append]
  · cases d.parameters <;> simp [List.lookup_append]
  · cases d.locals <;> simp [List.lookup_append]
  · cases d.steps <;> simp [List.lookup_append]
  · cases d.immediateCommands <;> simp [List.lookup_append]
  · cases d.hardwareCommands <;> simp [List.lookup_append]
  · cases d.requests <;> simp [List.lookup_append]

theorem declarationsOf_parts (block : Source.Block) (place : Option Source.Position)
    (h : List.Forall₂ PartOf trees parts) :
    List.Forall₂ DeclarationOf
      (inside (blockRule block) "variable_declaration" (.node "start" place trees))
      (parts.flatMap (Part.declarationsOf block)) := by
  refine forall₂_inside h (fun part hno => ?_) fun tree part hpart hmem => ?_
  · cases part with
    | declarations other list =>
      exact if_neg fun heq => hno (by rw [heq]; exact List.mem_singleton.2 rfl)
    | _ => rfl
  · cases part with
    | declarations other list =>
      have hblock : other = block := by
        have heq := List.mem_singleton.1 hmem
        cases block <;> cases other <;> first | rfl | simp [blockRule] at heq
      subst hblock
      rw [Part.declarationsOf, if_pos rfl]
      exact hpart
    | _ => cases block <;> simp [partRules, blockRule] at hmem

theorem immediateOf_parts (place : Option Source.Position) (h : List.Forall₂ PartOf trees parts) :
    List.Forall₂ ImmediateOf
      (inside "immediate_block" "immediate_command" (.node "start" place trees))
      (parts.flatMap Part.immediateCommands) := by
  refine forall₂_inside h (fun part hno => ?_) fun tree part hpart hmem => ?_
  · cases part with
    | immediate commands => exact absurd (List.mem_singleton.2 rfl) hno
    | _ => rfl
  · rcases part with _ | _ | _ | ⟨_ | _, _⟩ | _ | _ | commands | _ <;>
      simp [partRules, blockRule] at hmem
    exact hpart

theorem hardwareOf_parts (place : Option Source.Position) (h : List.Forall₂ PartOf trees parts) :
    List.Forall₂ HardwareOf
      (inside "hardware_block" "hardware_command" (.node "start" place trees))
      (parts.flatMap Part.hardwareCommands) := by
  refine forall₂_inside h (fun part hno => ?_) fun tree part hpart hmem => ?_
  · cases part with
    | hardware commands => exact absurd (List.mem_singleton.2 rfl) hno
    | _ => rfl
  · rcases part with _ | _ | _ | ⟨_ | _, _⟩ | _ | _ | _ | commands <;>
      simp [partRules, blockRule] at hmem
    exact hpart

/-- The identifier is the one of the first declaration of one. -/
theorem idOf_parts {id : String} (h : List.Forall₂ PartOf trees parts)
    (hid : parts.findSome? Part.id? = some id) :
    ∃ place token rest, trees.filter (Tree.isOf "id_declaration") =
      .node "id_declaration" place [.leaf token] :: rest ∧ StringOf token id := by
  have hids : List.Forall₂ (fun tree name => ∃ place token,
      tree = .node "id_declaration" place [.leaf token] ∧ StringOf token name)
      (trees.filter (Tree.isOf "id_declaration")) (parts.filterMap Part.id?) := by
    refine forall₂_parts h (fun _ _ h => rule_eq h) ?_ fun tree part c hpart hc => ?_
    · rintro (_ | _ | _ | ⟨_ | _, _⟩ | _ | _ | _ | _) <;> simp [partRules, blockRule, Part.id?]
    · cases part <;> cases hc
      exact hpart
  rw [← List.head?_filterMap] at hid
  obtain ⟨more, hmore⟩ := List.head?_eq_some_iff.1 hid
  rw [hmore] at hids
  obtain ⟨_, rest, ⟨place, token, rfl, htoken⟩, -, heq⟩ := List.forall₂_cons_right_iff.1 hids
  exact ⟨place, token, rest, heq, htoken⟩

theorem headerOf_parts (place : Option Source.Position) (h : List.Forall₂ PartOf trees parts) :
    List.Forall₂ HeaderEntryOf (headerEntries (.node "start" place trees))
      (parts.filterMap Part.metadata?) := by
  refine forall₂_parts h (fun _ _ h => by rw [rule_eq h, rule_eq h]) ?_
    fun tree part c hpart hc => ?_
  · rintro (_ | _ | _ | ⟨_ | _, _⟩ | _ | _ | _ | _) <;>
      simp [partRules, blockRule, Part.metadata?]
  · cases part <;> cases hc
    exact hpart

/-- The steps and the requests of the parts are those of the nodes, each whole. -/
theorem stepsOf_requestsOf_parts (h : List.Forall₂ PartOf trees parts) :
    List.Forall₂ StepOf (trees.filter (Tree.isOf "step")) (parts.filterMap Part.step?) ∧
      List.Forall₂ RequestOf (trees.filter (Tree.isOf "request"))
        (parts.filterMap Part.request?) := by
  constructor
  all_goals
    refine forall₂_parts h (fun _ _ h => rule_eq h) ?_ fun tree part c hpart hc => ?_
    · rintro (_ | _ | _ | ⟨_ | _, _⟩ | _ | _ | _ | _) <;>
        simp [partRules, blockRule, Part.step?, Part.request?]
    · cases part <;> cases hc
      exact hpart

/-- A gathered document is the one that the tree of its items says. -/
theorem documentOf_gather {place : Option Source.Position} {d : Document}
    (h : List.Forall₂ PartOf trees parts) (hd : OfOutline.gather parts = .ok d) :
    DocumentOf (.node "start" place trees) d := by
  obtain ⟨id, hid, rfl⟩ := OfOutline.gather_eq_ok.1 hd
  have hparameters := declarationsOf_parts .parameters place h
  have hlocals := declarationsOf_parts .locals place h
  obtain ⟨hsteps, hrequests⟩ := stepsOf_requestsOf_parts h
  have himmediate := immediateOf_parts place h
  have hhardware := hardwareOf_parts place h
  obtain ⟨hwritten, hgroups⟩ := has_document _
  exact {
    id := idOf_parts h hid
    metadata := ⟨_, headerOf_parts place h, dictionaryOf_ofList _⟩
    parameters := hparameters
    locals := hlocals
    steps := hsteps
    immediate := himmediate
    hardware := hhardware
    requests := hrequests
    metadata_written := hwritten
    parameters_written := groupOf hgroups.1 (nil_iff hparameters)
    locals_written := groupOf hgroups.2.1 (nil_iff hlocals)
    steps_written := groupOf hgroups.2.2.1 (nil_iff hsteps)
    immediate_written := groupOf hgroups.2.2.2.1 (nil_iff himmediate)
    hardware_written := groupOf hgroups.2.2.2.2.1 (nil_iff hhardware)
    requests_written := groupOf hgroups.2.2.2.2.2 (nil_iff hrequests) }

end Contents

namespace Document

open Contents (DocumentOf PartOf)
open Source (Tree Outline)

/-- The document of a text is the one that its syntax tree says. -/
theorem documentOf_ofText {validate : Bool} {text : List Char} {d : Document}
    (h : ofText validate text = .ok d) :
    ∃ outline, Outline.read text = .ok outline ∧ DocumentOf outline.tree d := by
  obtain ⟨outline, hread, hd⟩ := ofText_eq_ok.1 h
  obtain ⟨parts, hparts, hgather⟩ := bind_eq_ok.1 hd
  have hgrammatical : outline.tree.Grammatical := ((Outline.ends_read text).result outline hread).1
  have hitems : ∀ item ∈ outline.items, (Tree.ofItem item).Grammatical := fun item hitem =>
    Tree.grammatical_children hgrammatical _ (List.mem_map_of_mem hitem)
  refine ⟨outline, hread, Contents.documentOf_gather ?_ hgather⟩
  refine Contents.forall₂_mapM (fun item hitem part hpart => ?_) parts hparts
  exact Contents.partOf (hitems item hitem) (OfOutline.meansOf_of_part item part hpart)

/-- A text with groups of all kinds of lines, empty ones among them and metadata written again. -/
def groupedText : List Char :=
  String.toList "@ID \"t\"\n@METADATA \"k\" 1\n@LOAD_AND_GO\n@METADATA \"k\" [2, null]\n" ++
    String.toList "C NOOP [] [1 A] # twice\n@MODEL x 5 \"0\"\n@METADATA \"n\" {}\n" ++
    String.toList "R1 @LOAD(\"child\")\n@ENGINE 2\nG \"g\" @REQUEST_BEGIN(\"r\")\nC NOOP\n" ++
    String.toList "@REQUEST_END\n@IMMEDIATE\nECHO true\n@HARDWARE\nRESET\n" ++
    String.toList "C @REQUEST_BEGIN(\"s\")\nC NOOP\n@REQUEST_END\n"

/-- The metadata of the text keep the place of the key that is written again, and its requests stand
before and after its sections. -/
theorem documentOf_groupedText : Succeeds (ofText true groupedText) fun d =>
    d.metadata.map Prod.fst = [("k" : String), "lgo"] ∧
      d.requests.map Request.name = [("r" : String), "s"] ∧
      d.steps.map (fun s => s.arguments) = [[.repetition [] none,
        .repetition [[.number (.int 1) none, .symbol "A" none]] none], []] ∧
      ∃ outline, Outline.read groupedText = .ok outline ∧ DocumentOf outline.tree d := by
  have hgroups : (ofText true groupedText).toOption.any (fun d =>
      d.metadata.map Prod.fst == [("k" : String), "lgo"] &&
        d.requests.map Request.name == [("r" : String), "s"] &&
        d.steps.map (fun s => s.arguments) == [[.repetition [] none,
          .repetition [[.number (.int 1) none, .symbol "A" none]] none], []]) = true := by
    decide +kernel
  obtain ⟨d, hd, hgroups⟩ := succeeds_of_any hgroups
  simp only [Bool.and_eq_true, beq_iff_eq] at hgroups
  exact ⟨d, hd, hgroups.1.1, hgroups.1.2, hgroups.2, documentOf_ofText hd⟩

end Document

end CommandSequence
