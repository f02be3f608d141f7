import CommandSequence.Proofs.Source.Shape

/-!
# The nodes of syntax trees

A node is asked for its tokens and for its children of a rule (`Tree.tokens`, `Tree.nodes`). Of a
step, a request or a command these are what was read below its line; the shape of a declaration
bounds the words and strings after its name (`Tree.exists_details`).
-/

namespace CommandSequence.Source.Tree

/-- The children of a node. -/
def children : Tree → List Tree
  | .node _ _ children => children
  | .leaf _ => []

/-- The token of a leaf. -/
def token? : Tree → Option Token
  | .leaf token => some token
  | .node .. => none

/-- The tokens among the children. -/
def tokens (tree : Tree) : List Token :=
  tree.children.filterMap token?

/-- Whether the tree is a node of the rule. -/
def isOf (rule : Literal) : Tree → Bool
  | .node r _ _ => r == rule
  | .leaf _ => false

/-- The children that are nodes of the rule. -/
def nodes (rule : Literal) (tree : Tree) : List Tree :=
  tree.children.filter (isOf rule)

/-! ## What shapes allow -/

namespace Label

variable {labels word : List Label} {s : Label}

theorem eq_of_mem_one (h : word ∈ (one labels).matches') : ∃ s ∈ labels, word = [s] := by
  induction labels with
  | nil => cases h
  | cons first labels ih =>
    rw [one, List.map_cons, List.sum_cons, RegularExpression.matches'_add] at h
    rcases h with h | h
    · exact ⟨first, List.mem_cons_self, h⟩
    · obtain ⟨s, hs, rfl⟩ := ih h
      exact ⟨s, List.mem_cons_of_mem _ hs, rfl⟩

theorem of_mem_maybe (h : word ∈ (maybe [s]).matches') : word.length ≤ 1 ∧ ∀ t ∈ word, t = s := by
  rcases h with h | h
  · rw [show word = [] from h]
    exact ⟨Nat.zero_le 1, List.forall_mem_nil _⟩
  · obtain ⟨t, ht, rfl⟩ := eq_of_mem_one h
    rw [List.mem_singleton.1 ht]
    exact ⟨Nat.le_refl 1, fun _ => List.mem_singleton.1⟩

theorem of_mem_pair (h : word ∈ (maybe [s] * maybe [s]).matches') :
    word.length ≤ 2 ∧ ∀ t ∈ word, t = s := by
  rw [RegularExpression.matches'_mul] at h
  obtain ⟨first, hfirst, second, hsecond, rfl⟩ := Language.mem_mul.1 h
  obtain ⟨hlength, hall⟩ := of_mem_maybe hfirst
  obtain ⟨hlength', hall'⟩ := of_mem_maybe hsecond
  exact ⟨by rw [List.length_append]; omega, List.forall_mem_append.2 ⟨hall, hall'⟩⟩

end Label

variable {tree : Tree} {token : Token} {place : Option Position} {rule : Literal}

theorem grammatical_children (h : tree.Grammatical) :
    ∀ child ∈ tree.children, child.Grammatical := by
  cases h with
  | leaf => exact List.forall_mem_nil _
  | node _ hchildren => exact hchildren

/-- The one token of a node is of the kind that the rule demands. -/
theorem kind_of_grammatical {kind : Terminal} (h : (node rule place [leaf token]).Grammatical)
    (hshape : shape rule = Label.one [.token kind]) : token.kind = kind := by
  cases h with
  | node h _ =>
    rw [hshape] at h
    obtain ⟨s, hs, heq⟩ := Label.eq_of_mem_one h
    rw [List.mem_singleton.1 hs] at heq
    exact Label.token.inj (List.cons.inj heq).1

/-- After the name of a declaration stand at most two words, and then at most two strings. -/
theorem exists_details {item : DeclarationItem} (h : (ofDeclaration item).Grammatical) :
    ∃ words strings, item.details = words ++ strings ∧
      (words.length ≤ 2 ∧ ∀ token ∈ words, token.kind = .identifier) ∧
      strings.length ≤ 2 ∧ ∀ token ∈ strings, token.kind = .string := by
  have hkinds {tokens : List Token} {word : List Label} {kind : Terminal}
      (hword : tokens.map (label ∘ leaf) = word)
      (h : word.length ≤ 2 ∧ ∀ t ∈ word, t = .token kind) :
      tokens.length ≤ 2 ∧ ∀ token ∈ tokens, token.kind = kind := by
    subst hword
    rw [List.length_map] at h
    exact ⟨h.1, fun token htoken => Label.token.inj (h.2 _ (List.mem_map_of_mem htoken))⟩
  cases h with
  | node h _ =>
    have h : (item.name :: item.details).map (label ∘ leaf) ∈
        (Label.one [.token .identifier] * (Label.maybe [.token .identifier] *
          Label.maybe [.token .identifier]) * (Label.maybe [.token .string] *
            Label.maybe [.token .string])).matches' := by
      rw [← List.map_map]
      exact h
    rw [RegularExpression.matches'_mul, RegularExpression.matches'_mul] at h
    obtain ⟨front, hfront, second, hsecond, heq⟩ := Language.mem_mul.1 h
    obtain ⟨name, hname, first, hfirst, rfl⟩ := Language.mem_mul.1 hfront
    obtain ⟨s, -, rfl⟩ := Label.eq_of_mem_one hname
    obtain ⟨words, strings, hdetails, hwords, hstrings⟩ :=
      List.map_eq_append_iff.1 (List.cons.inj heq).2.symm
    exact ⟨words, strings, hdetails, hkinds hwords (Label.of_mem_pair hfirst),
      hkinds hstrings (Label.of_mem_pair hsecond)⟩

/-! ## Rules -/

/-- The rules of time tags and of what steps do. -/
def lineRules : List Literal :=
  ["absolute_time", "command_complete", "command_relative", "epoch_relative", "ground_epoch",
    "command", "activate", "load", "ground_block", "ground_event", "args"]

/-- The rules of what stands below lines. -/
def lowerRules : List Literal :=
  ["metadata_entry", "model_entry", "engine", "epoch", "step"]

theorem isOf_eq_false {other : Literal} (hrule : rule ∈ lowerRules) (hother : other ∈ lineRules)
    (place : Option Position) (children : List Tree) :
    (node other place children).isOf rule = false := by
  have hdiffer : ∀ rule ∈ lowerRules, ∀ other ∈ lineRules, (other == rule) = false := by decide
  exact hdiffer rule hrule other hother

theorem tagRule_mem (kind : Terminal) : tagRule kind ∈ lineRules := by
  unfold tagRule
  split <;> decide

theorem stepRule_mem (kind : StepKind) : stepRule kind ∈ lineRules := by
  cases kind <;> decide

theorem isOf_ofTiming (hrule : rule ∈ lowerRules) (t : Timing) :
    (ofTiming t).isOf rule = false := by
  cases t with
  | tag token => exact isOf_eq_false hrule (tagRule_mem _) _ _
  | groundEpoch token name => exact isOf_eq_false hrule (by decide) _ _

/-! ## Children -/

theorem nodes_description (rule : Literal) (d : Option Token) :
    (ofDescription d).filter (isOf rule) = [] := by
  cases d <;> rfl

theorem tokens_description (d : Option Token) : (ofDescription d).filterMap token? = d.toList := by
  cases d <;> rfl

theorem token?_map {α : Type} {f : α → Tree} (hf : ∀ a, (f a).token? = none) (l : List α) :
    (l.map f).filterMap token? = [] := by
  rw [List.filterMap_map]
  exact List.filterMap_eq_nil_iff.2 fun a _ => hf a

theorem filter_isOf_map {α : Type} {f : α → Tree} {b : Bool} (hf : ∀ a, (f a).isOf rule = b)
    (l : List α) : (l.map f).filter (isOf rule) = if b then l.map f else [] := by
  cases b with
  | true => exact List.filter_eq_self.2 (List.forall_mem_map.2 fun a _ => hf a)
  | false => exact List.filter_eq_nil_iff.2 (List.forall_mem_map.2 fun a _ => by simp [hf a])

theorem nodes_ofStep (hrule : rule ∈ lowerRules) (item : StepItem) :
    (ofStep item).nodes rule = (item.directives.map ofDirective).filter (isOf rule) := by
  unfold nodes
  simp only [ofStep, children, ofTag, wrapped, List.filter_cons, List.filter_append,
    nodes_description, isOf_eq_false hrule (tagRule_mem _), isOf_eq_false hrule (stepRule_mem _),
    List.nil_append, Bool.false_eq_true, if_false]

theorem tokens_ofStep (item : StepItem) : (ofStep item).tokens = item.line.description.toList := by
  have hdirective (d : Directive) : (ofDirective d).token? = none := by cases d <;> rfl
  unfold tokens
  simp only [ofStep, children, List.filterMap_cons, List.filterMap_append, tokens_description,
    token?_map hdirective, List.append_nil, ofTag, wrapped, token?]

theorem isOf_ofMetadata (line : MetadataLine) (rule : Literal) :
    (ofMetadata line).isOf rule = ("metadata_entry" == rule) := rfl

theorem isOf_leaf (token : Token) (rule : Literal) : (leaf token).isOf rule = false := rfl

theorem token?_leaf (token : Token) : (leaf token).token? = some token := rfl

/-- The steps and the metadata of a request, and what is neither. -/
theorem nodes_ofRequest (item : RequestItem) :
    (ofRequest item).nodes "step" = item.steps.map ofStep ∧
      (ofRequest item).nodes "metadata_entry" = item.metadata.map ofMetadata := by
  have hstep (rule : Literal) (s : StepItem) : (ofStep s).isOf rule = ("step" == rule) := rfl
  have hnodes {rule : Literal} (hrule : rule ∈ lowerRules) : (ofRequest item).nodes rule =
      (item.steps.map ofStep).filter (isOf rule) ++
        (item.metadata.map ofMetadata).filter (isOf rule) := by
    unfold nodes
    simp only [ofRequest, children, List.filter_cons, List.filter_append, nodes_description,
      isOf_ofTiming hrule, isOf_leaf, List.nil_append, Bool.false_eq_true, if_false]
  constructor
  · rw [hnodes (by decide), filter_isOf_map (hstep _), filter_isOf_map (isOf_ofMetadata · _)]
    exact List.append_nil _
  · rw [hnodes (by decide), filter_isOf_map (hstep _), filter_isOf_map (isOf_ofMetadata · _)]
    rfl

theorem tokens_ofRequest (item : RequestItem) :
    (ofRequest item).tokens = item.line.name :: item.line.description.toList := by
  have htiming (t : Timing) : (ofTiming t).token? = none := by cases t <;> rfl
  have hstep (s : StepItem) : (ofStep s).token? = none := rfl
  have hmetadata (line : MetadataLine) : (ofMetadata line).token? = none := rfl
  unfold tokens
  simp only [ofRequest, children, List.filterMap_cons, List.filterMap_append, tokens_description,
    token?_map hstep, token?_map hmetadata, List.append_nil, htiming, token?_leaf]

theorem nodes_ofCommand (kind : Section) (item : CommandItem) :
    (ofCommand kind item).nodes "metadata_entry" = item.metadata.map ofMetadata := by
  have hrest : (ofDescription item.line.description ++ item.metadata.map ofMetadata).filter
      (isOf "metadata_entry") = item.metadata.map ofMetadata := by
    rw [List.filter_append, nodes_description, filter_isOf_map (isOf_ofMetadata · _)]
    rfl
  cases kind <;> exact hrest

theorem tokens_ofCommand (kind : Section) (item : CommandItem) :
    (ofCommand kind item).tokens = item.line.stem :: item.line.description.toList := by
  have hmetadata (line : MetadataLine) : (ofMetadata line).token? = none := rfl
  have hrest : (ofDescription item.line.description ++ item.metadata.map ofMetadata).filterMap
      token? = item.line.description.toList := by
    rw [List.filterMap_append, tokens_description, token?_map hmetadata, List.append_nil]
  cases kind <;> exact congrArg (item.line.stem :: ·) hrest

end CommandSequence.Source.Tree
