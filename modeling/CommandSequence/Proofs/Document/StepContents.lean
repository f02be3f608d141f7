import CommandSequence.Proofs.Document.Contents
import CommandSequence.Proofs.Document.Effects
import CommandSequence.Proofs.Document.ToJson

/-!
# Steps hold what their trees say

A step is the one that its tree says (`Contents.stepOf`). There is one lemma for each construct
below it, that what is made of the construct is what its tree says. Numerals always spell numbers
because trees are grammatical, and the directives that are accepted hold one engine and one epoch at
most, so that the first of a kind is all of them.
-/

namespace CommandSequence.Contents

open Source (Token Tree Terminal)
open OfOutline (string number boolean word nonEmpty description)

theorem dictionaryOf_ofList {α : Type} (entries : List (String × α)) :
    DictionaryOf entries (Dictionary.ofList entries) :=
  ⟨Dictionary.keys_ofList entries, fun key => Dictionary.get?_ofList key entries⟩

/-! ## Lists -/

/-- Nodes that are picked out correspond to the results that are picked out. -/
theorem forall₂_filter {α β γ : Type} {R : α → β → Prop} {S : α → γ → Prop} {p : α → Bool}
    {pick : β → Option γ} {l : List α} {out : List β} (h : List.Forall₂ R l out)
    (hp : ∀ a b, R a b → p a = (pick b).isSome) (hpick : ∀ a b c, R a b → pick b = some c → S a c) :
    List.Forall₂ S (l.filter p) (out.filterMap pick) := by
  induction h with
  | nil => exact .nil
  | @cons a b l out hab _ ih =>
    have hsome := hp a b hab
    cases hc : pick b with
    | none =>
      rw [hc, Option.isSome_none] at hsome
      rw [List.filter_cons_of_neg (Bool.eq_false_iff.1 hsome), List.filterMap_cons_none hc]
      exact ih
    | some c =>
      rw [hc, Option.isSome_some] at hsome
      rw [List.filter_cons_of_pos hsome, List.filterMap_cons_some hc]
      exact .cons (hpick a b c hab hc) ih

/-- What is read of each item of a list is what the trees of the items say. -/
theorem forall₂_mapM {α β : Type} {tree : α → Tree} {R : Tree → β → Prop} {f : α → Except Fault β}
    {l : List α} (h : ∀ a ∈ l, Yields (f a) (R (tree a))) :
    Yields (l.mapM f) (List.Forall₂ R (l.map tree)) := fun out hout =>
  List.forall₂_map_left_iff.2 (Yields.mapM h out hout)

/-! ## Tokens -/

variable {token : Token}

theorem stringOf (token : Token) : Yields (string token) (StringOf token) := by
  unfold string
  split
  · next text h => exact .ok (by rw [StringOf, h, String.toList_ofList])
  · exact .error

theorem numberOf (h : Number.read? token.text ≠ .ok none) :
    Yields (number token) (NumberOf token) := by
  intro n hn
  obtain ⟨found, hfound, heq⟩ := bind_eq_ok.1 hn
  unfold OfOutline.number? at hfound
  cases hread : Number.read? token.text with
  | error e => rw [hread] at hfound; cases hfound
  | ok spelled =>
    rw [hread] at hfound
    cases hfound
    cases found with
    | none => exact absurd hread h
    | some n' =>
      cases heq
      exact hread

theorem booleanOf (token : Token) : BooleanOf token (boolean token) := by
  unfold BooleanOf boolean
  exact beq_iff_eq

theorem wordOf (token : Token) : WordOf token (word token) :=
  rfl

theorem filledOf (text : String) : FilledOf text (nonEmpty text) := by
  unfold nonEmpty FilledOf
  split
  · next h => exact ⟨(String.isEmpty_iff.1 h).symm, nofun⟩
  · next h => exact ⟨rfl, fun heq => h (by rw [Option.some.inj heq]; rfl)⟩

theorem tagOf {validate : Bool} (token : Token) :
    Yields (OfOutline.tag validate token) (TagOf token) := by
  unfold OfOutline.tag TagOf
  split
  · next h => exact .ok (by rw [h]; exact ⟨rfl, nofun⟩)
  · next letter text h =>
    rw [h]
    split
    · exact .error
    · exact .ok (filledOf _)

theorem descriptionOf (token : Option Token) : DescriptionOf token (description token) := by
  cases token with
  | none => rfl
  | some token =>
    have h := filledOf (String.ofList (if (token.text.drop 1).head? == some (' ' : Char) then
      (token.text.drop 1).drop 1 else token.text.drop 1))
    simp only [beq_iff_eq] at h
    simpa [DescriptionOf, description] using h

/-! ## Grammatical trees -/

theorem numberOf_leaf (h : (Tree.leaf token).Grammatical) (hkind : token.kind = .number) :
    Yields (number token) (NumberOf token) := by
  cases h with
  | leaf h => exact numberOf (h hkind)

theorem numberOf_wrapped {rule : Literal} (h : (Tree.wrapped rule token).Grammatical)
    (hkind : token.kind = .number) : Yields (number token) (NumberOf token) :=
  numberOf_leaf (Tree.grammatical_children h _ (List.mem_singleton.2 rfl)) hkind

/-! ## Metadata -/

mutual

theorem valueOf : (v : Source.Value) → (Tree.ofValue v).Grammatical →
    Yields (OfOutline.value v) (ValueOf (Tree.ofValue v))
  | .scalar token, h => by
    rw [OfOutline.value]
    rw [Tree.ofValue] at h ⊢
    split
    · next hkind =>
      rw [hkind]
      intro v hv
      obtain ⟨s, hs, rfl⟩ := map_eq_ok.1 hv
      exact .string (stringOf token s hs)
    · next hkind =>
      intro v hv
      obtain ⟨n, hn, rfl⟩ := map_eq_ok.1 hv
      have hn := numberOf_wrapped h hkind n hn
      rw [hkind]
      exact .number hn
    · next hkind =>
      rw [hkind]
      exact .ok (.boolean (booleanOf token))
    · next hstring hnumber hboolean =>
      have hrule : Tree.scalarRule token.kind = "json_null" := by
        unfold Tree.scalarRule
        split
        · next hkind => exact absurd hkind hstring
        · next hkind => exact absurd hkind hnumber
        · next hkind => exact absurd hkind hboolean
        · rfl
      rw [hrule]
      exact .ok (.null _ token)
  | .array place items, h => by
    rw [OfOutline.value]
    rw [Tree.ofValue] at h ⊢
    intro v hv
    obtain ⟨out, hout, rfl⟩ := map_eq_ok.1 hv
    exact .array (valuesOf items (Tree.grammatical_children h) out hout)
  | .object place written, h => by
    rw [OfOutline.value]
    rw [Tree.ofValue] at h ⊢
    intro v hv
    obtain ⟨out, hout, rfl⟩ := map_eq_ok.1 hv
    exact .object (membersOf written (Tree.grammatical_children h) out hout)
      (dictionaryOf_ofList out)

theorem valuesOf : (items : List Source.Value) → (∀ t ∈ Tree.ofItems items, t.Grammatical) →
    Yields (OfOutline.values items) (List.Forall₂ ValueOf (Tree.ofItems items))
  | [], _ => by
    rw [OfOutline.values, Tree.ofItems]
    exact .ok .nil
  | item :: rest, h => by
    rw [OfOutline.values]
    rw [Tree.ofItems] at h ⊢
    obtain ⟨hitem, hrest⟩ := List.forall_mem_cons.1 h
    exact (valueOf item hitem).bind fun v hv => (valuesOf rest hrest).bind fun out hout =>
      .ok (.cons hv hout)

theorem membersOf : (written : List (Token × Source.Value)) →
    (∀ t ∈ Tree.ofMembers written, t.Grammatical) →
    Yields (OfOutline.members written) (List.Forall₂ MemberOf (Tree.ofMembers written))
  | [], _ => by
    rw [OfOutline.members, Tree.ofMembers]
    exact .ok .nil
  | (key, item) :: rest, h => by
    rw [OfOutline.members]
    rw [Tree.ofMembers] at h ⊢
    obtain ⟨hpair, hrest⟩ := List.forall_mem_cons.1 h
    have hitem := Tree.grammatical_children hpair (Tree.ofValue item) (by simp [Tree.children])
    exact (stringOf key).bind fun name hname => (valueOf item hitem).bind fun v hv =>
      (membersOf rest hrest).bind fun out hout => .ok (.cons (.mk hname hv) hout)

end

theorem entryOf {line : Source.MetadataLine} (h : (Tree.ofMetadata line).Grammatical) :
    Yields (OfOutline.entry line) (EntryOf (Tree.ofMetadata line)) := by
  have hvalue := Tree.grammatical_children h (Tree.ofValue line.value)
    (List.mem_cons_of_mem _ List.mem_cons_self)
  exact (stringOf line.key).bind fun key hkey => (valueOf line.value hvalue).bind fun v hv =>
    .ok (.mk hkey hv)

theorem metadataOf {lines : List Source.MetadataLine}
    (h : ∀ line ∈ lines, (Tree.ofMetadata line).Grammatical) :
    Yields (OfOutline.metadata lines) (MetadataOf (lines.map Tree.ofMetadata)) :=
  (forall₂_mapM fun line hline => entryOf (h line hline)).bind fun entries hentries =>
    .ok ⟨entries, hentries, dictionaryOf_ofList entries⟩

/-! ## Arguments and times -/

theorem baseArgumentOf (h : (Tree.ofSingle token).Grammatical) :
    Yields (OfOutline.baseArgument token) (BaseArgumentOf (Tree.ofSingle token)) := by
  unfold OfOutline.baseArgument
  unfold Tree.ofSingle at h ⊢
  split
  · next hkind =>
    rw [hkind]
    exact (stringOf token).bind fun s hs => .ok (.string hs)
  · next hkind =>
    refine (numberOf_wrapped h hkind).bind fun n hn => ?_
    rw [hkind]
    split
    · exact .ok (.number hn)
    · exact .error
  · next hkind =>
    rw [hkind]
    exact .ok (.boolean (booleanOf token))
  · next hkind =>
    rw [hkind]
    exact .ok (.hex (wordOf token))
  · next hstring hnumber hboolean hhex =>
    have hrule : Tree.argumentRule token.kind = "symbol_argument" := by
      unfold Tree.argumentRule
      split
      · next hkind => exact absurd hkind hstring
      · next hkind => exact absurd hkind hnumber
      · next hkind => exact absurd hkind hboolean
      · next hkind => exact absurd hkind hhex
      · rfl
    rw [hrule]
    exact .ok (.symbol (wordOf token))

theorem argumentOf {a : Source.Argument} (h : (Tree.ofArgument a).Grammatical) :
    Yields (OfOutline.argument a) (ArgumentOf (Tree.ofArgument a)) := by
  cases a with
  | single token => exact (baseArgumentOf h).bind fun a ha => .ok (.base ha)
  | group place items =>
    have hitems : ∀ token ∈ items, (Tree.ofSingle token).Grammatical := fun token htoken =>
      Tree.grammatical_children h _ (List.mem_map_of_mem htoken)
    refine (forall₂_mapM fun token htoken => baseArgumentOf (hitems token htoken)).bind
      fun set hset => ?_
    rw [Tree.ofArgument]
    cases items with
    | nil =>
      cases hset
      exact .ok (.empty _)
    | cons token items =>
      obtain ⟨_, set, -, -, rfl⟩ := List.forall₂_cons_left_iff.1 hset
      exact .ok (.group hset)

theorem argumentsOf {arguments : List Source.Argument}
    (h : (Tree.ofArguments arguments).Grammatical) :
    Yields (OfOutline.arguments arguments) (ArgumentsOf (Tree.ofArguments arguments)) := by
  have hargument : ∀ a ∈ arguments, (Tree.ofArgument a).Grammatical := fun _ hmem =>
    Tree.grammatical_children h _ (List.mem_map_of_mem hmem)
  exact (forall₂_mapM fun a ha => argumentOf (hargument a ha)).mono fun out hout => .mk hout

theorem timeOf {validate : Bool} (token : Token) :
    Yields (OfOutline.time validate token) (TimeOf (Tree.ofTag token)) := by
  unfold OfOutline.time Tree.ofTag
  have htag := @tagOf validate token
  split
  · next hkind =>
    rw [hkind]
    intro t ht
    obtain ⟨tag, hread, rfl⟩ := map_eq_ok.1 ht
    exact .absolute (htag tag hread)
  · next hkind =>
    rw [hkind]
    exact .ok (.commandComplete _ token)
  · next hkind =>
    rw [hkind]
    intro t ht
    obtain ⟨tag, hread, rfl⟩ := map_eq_ok.1 ht
    exact .commandRelative (htag tag hread)
  · next habsolute hcomplete hrelative =>
    have hrule : Tree.tagRule token.kind = "epoch_relative" := by
      unfold Tree.tagRule
      split
      · next hkind => exact absurd hkind habsolute
      · next hkind => exact absurd hkind hcomplete
      · next hkind => exact absurd hkind hrelative
      · rfl
    rw [hrule]
    intro t ht
    obtain ⟨tag, hread, rfl⟩ := map_eq_ok.1 ht
    exact .epochRelative (htag tag hread)

/-! ## Directives -/

open OfOutline (Effect)

/-- The effect is the one that the tree of a directive says. -/
def EffectOf (tree : Tree) : Effect → Prop
  | .metadata key value => EntryOf tree (key, value)
  | .model m => ModelOf tree m
  | .engine _ n => EngineOf tree n
  | .epoch _ name => EpochOf tree name

/-- The rule of a directive of the kind. -/
def directiveRule : Terminal → Literal
  | .metadata => "metadata_entry"
  | .model => "model_entry"
  | .engine => "engine"
  | _ => "epoch"

theorem isOf_of_effectOf {tree : Tree} {e : Effect} (h : EffectOf tree e) (rule : Literal) :
    tree.isOf rule = (directiveRule e.kind == rule) := by
  cases e <;> cases h <;> rfl

theorem modelValueOf (h : (Tree.leaf token).Grammatical) :
    Yields (OfOutline.modelValue token) (ModelValueOf token) := by
  unfold OfOutline.modelValue
  split
  · next hkind =>
    intro v hv
    obtain ⟨s, hs, rfl⟩ := map_eq_ok.1 hv
    exact .string hkind (stringOf token s hs)
  · next hkind =>
    intro v hv
    obtain ⟨n, hn, rfl⟩ := map_eq_ok.1 hv
    exact .number hkind (numberOf_leaf h hkind n hn)
  · next hstring hnumber => exact .ok (.boolean hstring hnumber (booleanOf token))

theorem modelOf {line : Source.ModelLine} (h : (Tree.ofDirective (.model line)).Grammatical) :
    Yields (OfOutline.model line) (ModelOf (Tree.ofDirective (.model line))) := by
  have hvalue := Tree.grammatical_children h (.leaf line.value)
    (List.mem_cons_of_mem _ List.mem_cons_self)
  have hrest (name : String)
      (hname : if line.variableName.kind = .string then StringOf line.variableName name
        else WordOf line.variableName name) :
      Yields (do return Model.mk name (← OfOutline.modelValue line.value) (← string line.offset))
        (ModelOf (Tree.ofDirective (.model line))) :=
    (modelValueOf hvalue).bind fun given hgiven => (stringOf line.offset).bind fun offset hoffset =>
      .ok (.mk hname hgiven hoffset)
  -- The name is read in one of two ways, and what follows it alike.
  unfold OfOutline.model
  by_cases hkind : line.variableName.kind = .string
  · rw [if_pos (beq_iff_eq.2 hkind)]
    exact (stringOf line.variableName).bind fun name hname =>
      hrest name (by rw [if_pos hkind]; exact hname)
  · rw [if_neg fun h => hkind (beq_iff_eq.1 h)]
    exact hrest _ (by rw [if_neg hkind]; exact wordOf _)

theorem effectOf {d : Source.Directive} (h : (Tree.ofDirective d).Grammatical) :
    Yields (OfOutline.effect d) (EffectOf (Tree.ofDirective d)) := by
  cases d with
  | metadata line => exact (entryOf h).bind fun entry hentry => .ok hentry
  | model line =>
    intro e he
    obtain ⟨m, hm, rfl⟩ := map_eq_ok.1 he
    exact modelOf h m hm
  | engine place token =>
    have hleaf := Tree.grammatical_children h (.leaf token) (List.mem_singleton.2 rfl)
    intro e he
    obtain ⟨n, hn, he⟩ := bind_eq_ok.1 he
    have hread := numberOf_leaf hleaf (Tree.kind_of_grammatical h rfl) n hn
    cases n with
    | int n => cases he; exact .mk hread
    | float x => cases he
  | epoch place token =>
    intro e he
    obtain ⟨s, hs, rfl⟩ := map_eq_ok.1 he
    exact .mk (stringOf token s hs)

/-- What the directives of a rule come to is what is picked from the effects. -/
theorem forall₂_nodes {γ : Type} {S : Tree → γ → Prop} {rule : Literal} {pick : Effect → Option γ}
    {item : Source.StepItem} {effects : List Effect} (hlower : rule ∈ Tree.lowerRules)
    (h : List.Forall₂ EffectOf (item.directives.map Tree.ofDirective) effects)
    (hrule : ∀ e : Effect, (pick e).isSome = (directiveRule e.kind == rule))
    (hpick : ∀ tree e c, EffectOf tree e → pick e = some c → S tree c) :
    List.Forall₂ S ((Tree.ofStep item).nodes rule) (effects.filterMap pick) := by
  rw [Tree.nodes_ofStep hlower]
  refine forall₂_filter h (fun tree e he => ?_) hpick
  rw [isOf_of_effectOf he, hrule]

/-! ## Actions -/

theorem subjectOf (kind : Source.StepKind) (subject : Token) :
    Yields (OfOutline.action kind subject) (SubjectOf subject (Tree.stepRule kind)) := by
  cases kind with
  | command => exact .ok (.command (wordOf subject))
  | activate => exact (stringOf subject).bind fun s hs => .ok (.activate hs none none)
  | load => exact (stringOf subject).bind fun s hs => .ok (.load hs none none)
  | groundBlock => exact (stringOf subject).bind fun s hs => .ok (.groundBlock hs)
  | groundEvent => exact (stringOf subject).bind fun s hs => .ok (.groundEvent hs)

variable {effects : List Effect} {a : Action}

theorem subjectOf_withCalls {rule : Literal} (h : SubjectOf token rule a) :
    SubjectOf token rule (OfOutline.withCalls effects a) := by
  cases h with
  | command h => exact .command h
  | activate h => exact .activate h _ _
  | load h => exact .load h _ _
  | groundBlock h => exact .groundBlock h
  | groundEvent h => exact .groundEvent h

/-- What a step takes from its directives for calls is in those of one kind, if the directives are
accepted. -/
theorem toList_withCalls {α : Type} {d : CallDirective}
    {pick : Effect → Option (Source.Position × α)} {given : Action → Option α}
    (hpick : ∀ e : Effect, (pick e).isSome = (e.kind == OfOutline.callTerminal d))
    (hcall : OfOutline.isCall a = true →
      given (OfOutline.withCalls effects a) = (effects.findSome? pick).map Prod.snd)
    (hother : OfOutline.isCall a = false → given (OfOutline.withCalls effects a) = none)
    (h : OfOutline.checkCalls (OfOutline.isCall a) [] (effects.filterMap Effect.call?) = .ok ()) :
    (given (OfOutline.withCalls effects a)).toList =
      effects.filterMap fun e => (pick e).map Prod.snd := by
  rw [← List.map_filterMap]
  cases hcalls : OfOutline.isCall a with
  | true =>
    rw [hcall hcalls]
    exact OfOutline.toList_findSome? hpick h
  | false =>
    rw [hcalls] at h
    rw [hother hcalls, OfOutline.filterMap_eq_nil hpick h]
    rfl

/-- The engine of a step is the one of its directives for it, and its epoch likewise. -/
theorem calls_withCalls
    (h : OfOutline.checkCalls (OfOutline.isCall a) [] (effects.filterMap Effect.call?) = .ok ()) :
    (OfOutline.withCalls effects a).engine?.toList =
        effects.filterMap (fun e => e.engine?.map Prod.snd) ∧
      (OfOutline.withCalls effects a).epoch?.toList =
        effects.filterMap (fun e => e.epoch?.map Prod.snd) := by
  constructor
  · refine toList_withCalls (d := .engine) (fun e => ?_) (fun hcall => ?_) (fun hother => ?_) h
    · cases e <;> rfl
    · cases a <;> first | rfl | cases hcall
    · cases a <;> first | rfl | cases hother
  · refine toList_withCalls (d := .epoch) (fun e => ?_) (fun hcall => ?_) (fun hother => ?_) h
    · cases e <;> rfl
    · cases a <;> first | rfl | cases hcall
    · cases a <;> first | rfl | cases hother

/-! ## Groups -/

/-- A group is written just if its trees are there. -/
theorem groupOf {α β : Type} {object : Json.Value} {key : String} {items : List α} {trees : List β}
    (hobject : object.has key = !items.isEmpty) (hempty : items = [] ↔ trees = []) :
    GroupOf object key trees := by
  rw [GroupOf, hobject, Bool.not_eq_true', ← Bool.not_eq_true, List.isEmpty_iff, hempty]

theorem nil_iff {α β : Type} {R : α → β → Prop} {trees : List α} {items : List β}
    (h : List.Forall₂ R trees items) : items = [] ↔ trees = [] := by
  rw [← List.length_eq_zero_iff, ← h.length_eq, List.length_eq_zero_iff]

theorem metadata_nil_iff {trees : List Tree} {m : Metadata} (h : MetadataOf trees m) :
    m = [] ↔ trees = [] := by
  obtain ⟨entries, hentries, hkeys, -⟩ := h
  rw [← nil_iff hentries, ← List.map_eq_nil_iff (f := Prod.fst), hkeys]
  cases entries with
  | nil => simp
  | cons entry entries => simp [List.eraseDups_cons]

/-! ## Steps -/

theorem has_step (s : Step) :
    s.toJson.has "metadata" = !s.metadata.isEmpty ∧ s.toJson.has "models" = !s.models.isEmpty := by
  have haction : (s.action.toJson s.arguments).lookup ("metadata" : String) = none ∧
      (s.action.toJson s.arguments).lookup ("models" : String) = none := by
    cases s.action <;> simp [Action.toJson, List.lookup_append]
  unfold Json.Value.has Step.toJson
  constructor
  · cases s.metadata <;> simp [List.lookup_append, haction.1]
  · cases s.models <;> simp [List.lookup_append, haction.2]

/-- The arguments of a step are written if it is a command or has any. -/
theorem has_arguments (s : Step) : s.toJson.has "args" = true ↔
    (∃ stem, s.action = .command stem) ∨ s.arguments ≠ [] := by
  unfold Json.Value.has Step.toJson
  cases haction : s.action with
  | command stem => simp [List.lookup_append, Action.toJson]
  | call kind sequence engine epoch =>
    cases s.arguments <;> simp [List.lookup_append, Action.toJson]
  | ground kind name =>
    cases s.arguments <;> simp [List.lookup_append, Action.toJson]

/-- The step of a line and its directives is the one of its tree. -/
theorem stepOf {validate : Bool} {item : Source.StepItem} (h : (Tree.ofStep item).Grammatical) :
    Yields (OfOutline.step validate item) (StepOf (Tree.ofStep item)) := by
  have hchildren := Tree.grammatical_children h
  have harguments : (Tree.ofArguments item.line.arguments).Grammatical :=
    Tree.grammatical_children (hchildren _ (List.mem_cons_of_mem _ List.mem_cons_self)) _
      (List.mem_cons_of_mem _ List.mem_cons_self)
  have hdirectives : ∀ d ∈ item.directives, (Tree.ofDirective d).Grammatical := fun d hd =>
    hchildren _ (List.mem_cons_of_mem _ (List.mem_cons_of_mem _
      (List.mem_append_right _ (List.mem_map_of_mem hd))))
  intro s hs
  obtain ⟨moment, hmoment, hs⟩ := bind_eq_ok.1 hs
  obtain ⟨does, hdoes, hs⟩ := bind_eq_ok.1 hs
  obtain ⟨given, hgiven, hs⟩ := bind_eq_ok.1 hs
  obtain ⟨effects, heffects, hs⟩ := bind_eq_ok.1 hs
  obtain ⟨_, hcalls, hs⟩ := bind_eq_ok.1 hs
  cases hs
  -- Each group of the step is picked from the effects as its nodes are from the directives.
  have hall := forall₂_mapM (fun d hd => effectOf (hdirectives d hd)) effects heffects
  obtain ⟨hengine, hepoch⟩ := calls_withCalls hcalls
  have hmetadata : List.Forall₂ EntryOf ((Tree.ofStep item).nodes "metadata_entry")
      (effects.filterMap Effect.metadata?) :=
    forall₂_nodes (by decide) hall (fun e => by cases e <;> rfl)
      fun tree e c he hc => by cases e <;> cases hc; exact he
  have hmodels : List.Forall₂ ModelOf ((Tree.ofStep item).nodes "model_entry")
      (effects.filterMap Effect.model?) :=
    forall₂_nodes (by decide) hall (fun e => by cases e <;> rfl)
      fun tree e c he hc => by cases e <;> cases hc; exact he
  have hentries : MetadataOf ((Tree.ofStep item).nodes "metadata_entry")
      (Dictionary.ofList (effects.filterMap Effect.metadata?)) :=
    ⟨_, hmetadata, dictionaryOf_ofList _⟩
  exact {
    rule := rfl
    line := ⟨_, _, _, rfl, timeOf _ _ hmoment,
      .mk (subjectOf_withCalls (subjectOf _ _ _ hdoes)) (argumentsOf harguments _ hgiven)⟩
    description := by
      rw [Tree.tokens_ofStep, Option.head?_toList]
      exact descriptionOf _
    engine := by
      rw [hengine]
      exact forall₂_nodes (by decide) hall (fun e => by cases e <;> rfl)
        fun tree e c he hc => by cases e <;> cases hc; exact he
    epoch := by
      rw [hepoch]
      exact forall₂_nodes (by decide) hall (fun e => by cases e <;> rfl)
        fun tree e c he hc => by cases e <;> cases hc; exact he
    metadata := hentries
    models := hmodels
    arguments_written := has_arguments _
    metadata_written := groupOf (has_step _).1 (metadata_nil_iff hentries)
    models_written := groupOf (has_step _).2 (nil_iff hmodels) }

end CommandSequence.Contents
