import CommandSequence.Proofs.Document.Effects
import CommandSequence.Proofs.Document.Parts
import CommandSequence.Proofs.Source.Unplaced

/-!
# What an outline means wherever it stands

An item gives its part of the document, or none, wherever its tokens stand (`part_unplaced`); only
the places that faults name depend on it. Comments contribute nothing. So the document of an outline
depends on its items without their places and without comments (`Document.ofOutline_congr`).
-/

namespace CommandSequence

namespace OfOutline

open Source (Token Terminal)

variable {validate : Bool}

/-! ## Tokens and values -/

theorem string_unplaced (token : Token) :
    (string token.unplaced).toOption = (string token).toOption := by
  simp only [string, Token.unplaced]
  split <;> rfl

theorem number_unplaced (token : Token) : number token.unplaced = number token :=
  rfl

theorem description_unplaced (token : Option Token) :
    description (token.map Token.unplaced) = description token := by
  cases token <;> rfl

mutual

theorem value_unplaced : (v : Source.Value) → (value v.unplaced).toOption = (value v).toOption
  | .scalar token => by
    have hkind : token.unplaced.kind = token.kind := rfl
    simp only [Source.Value.unplaced, value, hkind]
    split
    · rw [toOption_map, toOption_map, string_unplaced]
    · rfl
    · rfl
    · rfl
  | .array _ items => by
    simp only [Source.Value.unplaced, value, toOption_map, values_unplaced items]
  | .object _ written => by
    simp only [Source.Value.unplaced, value, toOption_map, members_unplaced written]

theorem values_unplaced : (items : List Source.Value) →
    (values (Source.Value.unplacedItems items)).toOption = (values items).toOption
  | [] => rfl
  | item :: rest => by
    simp only [Source.Value.unplacedItems, values, toOption_bind, value_unplaced item,
      values_unplaced rest]

theorem members_unplaced : (written : List (Token × Source.Value)) →
    (members (Source.Value.unplacedMembers written)).toOption = (members written).toOption
  | [] => rfl
  | (key, item) :: rest => by
    simp only [Source.Value.unplacedMembers, members, toOption_bind, string_unplaced key,
      value_unplaced item, members_unplaced rest]

end

theorem entry_unplaced (line : Source.MetadataLine) :
    (entry line.unplaced).toOption = (entry line).toOption := by
  simp only [entry, Source.MetadataLine.unplaced, toOption_bind, string_unplaced, value_unplaced]

theorem toOption_mapM_unplaced {α β : Type} {f f' : α → Except Fault β} {g : α → α} {l : List α}
    (h : ∀ x, (f' (g x)).toOption = (f x).toOption) :
    ((l.map g).mapM f').toOption = (l.mapM f).toOption := by
  have hmap := toOption_mapM_map (k := id) (l := l) fun x _ =>
    (h x).trans (congrFun Option.map_id_fun.symm _)
  rw [hmap, List.map_id_fun, Option.map_id_fun, id]

theorem metadata_unplaced (lines : List Source.MetadataLine) :
    (metadata (lines.map Source.MetadataLine.unplaced)).toOption = (metadata lines).toOption := by
  simp only [metadata, toOption_bind, toOption_mapM_unplaced entry_unplaced]

/-! ## Arguments and times -/

theorem baseArgument_unplaced (token : Token) :
    (baseArgument token.unplaced).toOption = (baseArgument token).toOption := by
  have hkind : token.unplaced.kind = token.kind := rfl
  simp only [baseArgument, hkind]
  split
  · simp only [toOption_bind, string_unplaced]
  · simp only [toOption_bind, number_unplaced]
    refine congrArg (fun f => Option.bind _ f) (funext fun n => ?_)
    split <;> rfl
  all_goals rfl

theorem argument_unplaced (a : Source.Argument) :
    (argument a.unplaced).toOption = (argument a).toOption := by
  cases a with
  | single token =>
    simp only [Source.Argument.unplaced, argument, toOption_bind, baseArgument_unplaced]
  | group position items =>
    simp only [Source.Argument.unplaced, argument, toOption_bind,
      toOption_mapM_unplaced baseArgument_unplaced]

theorem arguments_unplaced (written : List Source.Argument) :
    (arguments (written.map Source.Argument.unplaced)).toOption = (arguments written).toOption :=
  toOption_mapM_unplaced argument_unplaced

theorem tag_unplaced (token : Token) :
    (tag validate token.unplaced).toOption = (tag validate token).toOption := by
  simp only [tag, Token.unplaced]
  split
  · rfl
  · split <;> rfl

theorem time_unplaced (token : Token) :
    (time validate token.unplaced).toOption = (time validate token).toOption := by
  have hkind : token.unplaced.kind = token.kind := rfl
  simp only [time, hkind]
  split <;> simp only [toOption_map, tag_unplaced]

/-! ## Steps -/

theorem modelValue_unplaced (token : Token) :
    (modelValue token.unplaced).toOption = (modelValue token).toOption := by
  have hkind : token.unplaced.kind = token.kind := rfl
  simp only [modelValue, hkind]
  split
  · rw [toOption_map, toOption_map, string_unplaced]
  · rfl
  · rfl

theorem model_unplaced (line : Source.ModelLine) :
    (model line.unplaced).toOption = (model line).toOption := by
  have hkind : line.variableName.unplaced.kind = line.variableName.kind := rfl
  have hword : word line.variableName.unplaced = word line.variableName := rfl
  simp only [model, Source.ModelLine.unplaced, hkind, hword]
  split <;> simp only [toOption_bind, string_unplaced, modelValue_unplaced]

/-- A directive has its effect at the beginning of a text. -/
theorem effect_unplaced (d : Source.Directive) :
    (effect d.unplaced).toOption = (effect d).toOption.map Effect.unplaced := by
  cases d with
  | metadata line =>
    simp only [Source.Directive.unplaced, effect, toOption_bind, entry_unplaced]
    cases (entry line).toOption <;> rfl
  | model line =>
    simp only [Source.Directive.unplaced, effect, toOption_map, model_unplaced]
    cases (model line).toOption <;> rfl
  | engine position token =>
    simp only [Source.Directive.unplaced, effect, toOption_bind, number_unplaced]
    cases (number token).toOption with
    | none => rfl
    | some n => cases n <;> rfl
  | epoch position token =>
    simp only [Source.Directive.unplaced, effect, toOption_map, string_unplaced]
    cases (string token).toOption <;> rfl

theorem action_unplaced (kind : Source.StepKind) (subject : Token) :
    (action kind subject.unplaced).toOption = (action kind subject).toOption := by
  cases kind with
  | command => rfl
  | _ => simp only [action, toOption_bind, string_unplaced]

theorem step_unplaced (item : Source.StepItem) :
    (step validate item.unplaced).toOption = (step validate item).toOption := by
  have heffects : ((item.directives.map Source.Directive.unplaced).mapM effect).toOption =
      (item.directives.mapM effect).toOption.map (List.map Effect.unplaced) :=
    toOption_mapM_map fun d _ => effect_unplaced d
  simp only [step, Source.StepItem.unplaced, Source.StepLine.unplaced, toOption_bind, time_unplaced,
    action_unplaced, arguments_unplaced, heffects, Option.bind_map, Function.comp_def,
    description_unplaced]
  refine congrArg (fun f => Option.bind _ f) (funext fun moment => ?_)
  refine congrArg (fun f => Option.bind _ f) (funext fun does => ?_)
  refine congrArg (fun f => Option.bind _ f) (funext fun given => ?_)
  refine congrArg (fun f => Option.bind _ f) (funext fun effects => ?_)
  have hsame : (effects.map Effect.unplaced).map Effect.unplaced = effects.map Effect.unplaced := by
    rw [List.map_map]
    exact congrArg (fun f => effects.map f) (funext fun e => by cases e <;> rfl)
  have hcalls := @checkCalls_congr (isCall does) _ _ hsame
  rw [← toOption_eq_some, ← toOption_eq_some] at hcalls
  have hcalls : (checkCalls (isCall does) [] ((effects.map Effect.unplaced).filterMap
      Effect.call?)).toOption = (checkCalls (isCall does) [] (effects.filterMap
      Effect.call?)).toOption := Option.ext fun _ => hcalls
  rw [hcalls, Effect.withCalls_congr hsame,
    Effect.filterMap_unplaced Effect.metadata?_unplaced hsame,
    Effect.filterMap_unplaced Effect.model?_unplaced hsame]

/-! ## Requests and commands -/

theorem groundEpoch_unplaced (position position' : Source.Position) (name : String)
    (delta : Option String) :
    (groundEpoch position name delta).toOption = (groundEpoch position' name delta).toOption := by
  unfold groundEpoch
  split <;> rfl

theorem timing_unplaced (t : Source.Timing) :
    (timing validate t.unplaced).toOption = (timing validate t).toOption := by
  cases t with
  | tag token => simp only [Source.Timing.unplaced, timing, toOption_map, time_unplaced]
  | groundEpoch token name =>
    simp only [Source.Timing.unplaced, timing, toOption_bind, string_unplaced, tag_unplaced,
      groundEpoch_unplaced token.unplaced.position token.position]

theorem request_unplaced (item : Source.RequestItem) :
    (request validate item.unplaced).toOption = (request validate item).toOption := by
  simp only [request, Source.RequestItem.unplaced, Source.RequestLine.unplaced, toOption_bind,
    timing_unplaced, string_unplaced, toOption_mapM_unplaced step_unplaced, metadata_unplaced,
    description_unplaced]
  refine congrArg (fun f => Option.bind _ f) (funext fun moment => ?_)
  refine congrArg (fun f => Option.bind _ f) (funext fun name => ?_)
  refine congrArg (fun f => Option.bind _ f) (funext fun steps => ?_)
  refine congrArg (fun f => Option.bind _ f) (funext fun notes => ?_)
  split <;> rfl

theorem stem_unplaced (record : String) (token : Token) :
    (stem record token.unplaced).toOption = (stem record token).toOption := by
  have htext : token.unplaced.text = token.text := rfl
  unfold stem
  rw [htext]
  split <;> rfl

theorem immediateCommand_unplaced (item : Source.CommandItem) :
    (immediateCommand item.unplaced).toOption = (immediateCommand item).toOption := by
  simp only [immediateCommand, Source.CommandItem.unplaced, Source.CommandLine.unplaced,
    toOption_bind, arguments_unplaced, metadata_unplaced, stem_unplaced, description_unplaced]

theorem hardwareCommand_unplaced (item : Source.CommandItem) :
    (hardwareCommand item.unplaced).toOption = (hardwareCommand item).toOption := by
  simp only [hardwareCommand, Source.CommandItem.unplaced, Source.CommandLine.unplaced,
    toOption_bind, metadata_unplaced, stem_unplaced, description_unplaced]

/-! ## Declarations -/

theorem typing_unplaced (name : String) (words : List Token) :
    (typing name (words.map Token.unplaced)).toOption = (typing name words).toOption := by
  have hword (token : Token) : word token.unplaced = word token := rfl
  match words with
  | [] => rfl
  | [only] => rfl
  | type :: enumeration :: rest =>
    simp only [List.map_cons, typing, hword]
    split <;> rfl

theorem range_unplaced (position position' : Source.Position) (part : List Char) :
    (range position part).toOption = (range position' part).toOption := by
  simp only [range, toOption_bind]
  refine congrArg (fun f => Option.bind _ f) (funext fun low => ?_)
  refine congrArg (fun f => Option.bind _ f) (funext fun high => ?_)
  split <;> rfl

theorem ranges_unplaced (position position' : Source.Position) (lists : List String) :
    (ranges position lists).toOption = (ranges position' lists).toOption := by
  cases lists with
  | nil => rfl
  | cons list rest =>
    simp only [ranges]
    split
    · rfl
    · have hranges := toOption_mapM_unplaced (g := id) (l := Cut.split ',' list.toList)
        (range_unplaced position position')
      rwa [List.map_id_fun] at hranges

theorem declaration_unplaced (item : Source.DeclarationItem) :
    (declaration item.unplaced).toOption = (declaration item).toOption := by
  have hfilter (p : Terminal → Bool) : (item.details.map Token.unplaced).filter
      (fun t => p t.kind) =
      (item.details.filter fun t => p t.kind).map Token.unplaced := List.filter_map ..
  have hword (token : Token) : word token.unplaced = word token := rfl
  simp only [declaration, Source.DeclarationItem.unplaced, toOption_bind, hfilter (· == .string),
    hfilter (· != .string), toOption_mapM_unplaced string_unplaced, hword, typing_unplaced,
    ranges_unplaced item.name.unplaced.position item.name.position]

/-! ## Items -/

theorem filled_unplaced {α : Type} (position position' : Source.Position) (cause : FaultCause)
    (list : List α) :
    (filled position cause list).toOption = (filled position' cause list).toOption := by
  unfold filled
  split <;> rfl

/-- An item gives the same part wherever it stands. -/
theorem part_unplaced (item : Source.Item) :
    (part validate item.unplaced).toOption = (part validate item).toOption := by
  cases item with
  | comment text => rfl
  | id position name => simp only [Source.Item.unplaced, part, toOption_map, string_unplaced]
  | loadAndGo position => rfl
  | metadata line => simp only [Source.Item.unplaced, part, toOption_bind, entry_unplaced]
  | block position block list =>
    simp only [Source.Item.unplaced, part, toOption_bind,
      toOption_mapM_unplaced declaration_unplaced, filled_unplaced .origin position]
  | step item => simp only [Source.Item.unplaced, part, toOption_map, step_unplaced]
  | request item => simp only [Source.Item.unplaced, part, toOption_map, request_unplaced]
  | «section» position kind commands =>
    cases kind <;>
      simp only [Source.Item.unplaced, part, toOption_bind,
        toOption_mapM_unplaced immediateCommand_unplaced,
        toOption_mapM_unplaced hardwareCommand_unplaced, filled_unplaced .origin position]

/-! ## Comments -/

/-- The part is that of a comment. -/
def Part.isComment : Part → Bool
  | .comment => true
  | _ => false

/-- Comments give parts of their own, and no other item gives one of these. -/
theorem isComment_of_part (item : Source.Item) :
    Yields (part validate item) fun p => p.isComment = item.isComment := by
  intro p h
  cases meansOf_of_part item p h
  all_goals rfl

theorem mapM_part_filter (items : List Source.Item) :
    ((items.filter fun item => !item.isComment).mapM (part validate)).toOption =
      (items.mapM (part validate)).toOption.map (List.filter fun p => !p.isComment) := by
  induction items with
  | nil => rfl
  | cons item items ih =>
    have hcomment := @isComment_of_part validate item
    rw [List.mapM_cons, toOption_bind]
    simp only [toOption_bind]
    cases hidle : item.isComment with
    | true =>
      obtain ⟨text, rfl⟩ : ∃ text, item = .comment text := by
        cases item
        all_goals first | exact ⟨_, rfl⟩ | cases hidle
      rw [List.filter_cons_of_neg (by simp [hidle]), ih]
      show _ =
          ((items.mapM (part validate)).toOption.bind fun parts => some (.comment :: parts)).map _
      cases (items.mapM (part validate)).toOption <;> rfl
    | false =>
      rw [List.filter_cons_of_pos (by simp [hidle]), List.mapM_cons, toOption_bind]
      simp only [toOption_bind, ih]
      cases hpart : part validate item with
      | error e => rfl
      | ok p =>
        have hp : p.isComment = false := (hcomment p hpart).trans hidle
        cases (items.mapM (part validate)).toOption with
        | none => rfl
        | some parts =>
          show some (p :: parts.filter _) = some ((p :: parts).filter _)
          rw [List.filter_cons_of_pos (by simp [hp])]

/-- Comments add nothing to the document. -/
theorem gather_filter (parts : List Part) :
    gather (parts.filter fun p => !p.isComment) = gather parts := by
  have heq {p : Part} (h : p.isComment = true) : p = .comment := by
    cases p
    all_goals first | rfl | cases h
  have hmany {α : Type} {pick : Part → List α} (h : pick .comment = []) :
      (parts.filter fun p => !p.isComment).flatMap pick = parts.flatMap pick := by
    induction parts with
    | nil => rfl
    | cons p parts ih =>
      cases hp : p.isComment with
      | true => rw [List.filter_cons_of_neg (by simp [hp]), ih, List.flatMap_cons, heq hp, h]; rfl
      | false =>
        rw [List.filter_cons_of_pos (by simp [hp]), List.flatMap_cons, List.flatMap_cons, ih]
  have hsome {α : Type} {pick : Part → Option α} (h : pick .comment = none) :
      (parts.filter fun p => !p.isComment).filterMap pick = parts.filterMap pick := by
    rw [List.filterMap_filter]
    refine List.filterMap_congr fun p _ => ?_
    cases hp : p.isComment with
    | true => rw [heq hp, h]; rfl
    | false => rfl
  have hid : (parts.filter fun p => !p.isComment).findSome? Part.id? =
      parts.findSome? Part.id? := by
    rw [← List.head?_filterMap, ← List.head?_filterMap, hsome rfl]
  unfold gather
  rw [hid, hsome rfl, hsome rfl, hsome rfl, hmany rfl, hmany rfl, hmany rfl, hmany rfl]

end OfOutline

/-- The document of an outline depends neither on where its items stand nor on comments. -/
theorem Document.ofOutline_congr {validate : Bool} {outline outline' : Source.Outline}
    (h : (outline.items.map Source.Item.unplaced).filter (fun item => !item.isComment) =
      (outline'.items.map Source.Item.unplaced).filter fun item => !item.isComment) :
    (ofOutline validate outline).toOption = (ofOutline validate outline').toOption := by
  have hplain (outline : Source.Outline) : (ofOutline validate outline).toOption =
      (((outline.items.map Source.Item.unplaced).filter fun item => !item.isComment).mapM
        (OfOutline.part validate) >>= OfOutline.gather).toOption := by
    rw [toOption_bind, OfOutline.mapM_part_filter,
      OfOutline.toOption_mapM_unplaced OfOutline.part_unplaced, ofOutline, toOption_bind,
      Option.bind_map]
    exact congrArg (fun f => Option.bind _ f) (funext fun parts =>
      congrArg Except.toOption (OfOutline.gather_filter parts).symm)
  rw [hplain, hplain, h]

end CommandSequence
