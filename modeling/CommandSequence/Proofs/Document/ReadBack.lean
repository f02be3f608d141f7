import CommandSequence.Document.OfJson
import CommandSequence.Proofs.Document.ToJson
import CommandSequence.Proofs.Json.Shape

/-!
# Reading the objects of a document

The object of a valid document has the shape of a document and is read as the document again, with
the numbers of its metadata that are not finite replaced by null (`Document.shape_toJson`). Record
by record, each field is found under its name, and the shape of its value passes the value.
-/

namespace CommandSequence

open Json (Value Checked Shape Members)
open Json.Checked (pass refine_eq_pass map_eq_pass seq_eq_pass)
open Json.Shape
open ToJson hiding optional group

/-! ## Documents without numbers that are not finite -/

/-- Metadata with null for every number that is not finite. -/
def Metadata.norm (m : Metadata) : Metadata :=
  Value.nullNonFiniteMembers m

/-- The document with null for every number in metadata that is not finite. -/
def Document.norm (d : Document) : Document :=
  d.mapMetadata Metadata.norm

/-! ## Metadata, times and arguments -/

theorem string_pass (s : String) : string (.string s) = pass s :=
  rfl

/-- A field that may be missing and whose value is read as it is. -/
theorem optional_pass {α : Type} {shape : Shape α} (write : α → Value) {members : Members}
    {name : String} {o : Option α} (hlookup : members.lookup name = o.map write)
    (h : ∀ a, o = some a → write a ≠ .null ∧ shape (write a) = pass a) :
    Shape.optional members name shape = pass o := by
  have hmap : Shape.optional members name shape = pass (o.map id) := optional_map hlookup h
  rwa [Option.map_id] at hmap

theorem optional_string {members : Members} {name : String} {o : Option String}
    (h : members.lookup name = o.map Value.string) :
    Shape.optional members name string = pass o :=
  optional_pass Value.string h fun s _ => ⟨nofun, string_pass s⟩

theorem optional_nonEmptyString {members : Members} {name : String} {o : Option String}
    (h : members.lookup name = o.map Value.string) (hne : o ≠ some ("" : String)) :
    Shape.optional members name nonEmptyString = pass o :=
  optional_pass Value.string h fun _ hs => ⟨nofun, nonEmptyString_eq_pass.2
    ⟨rfl, fun hempty => hne (hs.trans (congrArg some hempty))⟩⟩

theorem Metadata.ofMembers_pass {members : Members} {m : Metadata}
    (h : members.lookup ("metadata" : String) = if m.isEmpty then none else some m.toJson) :
    Metadata.ofMembers members = pass m.norm := by
  cases m with
  | nil =>
    unfold Metadata.ofMembers Shape.optional withDefault
    rw [h]
    rfl
  | cons entry rest =>
    have hfound : Shape.optional members "metadata" Metadata.filledShape =
        pass (some (Metadata.norm (entry :: rest))) := optional_eq_some.2 ⟨_, h, nofun, rfl⟩
    exact refine_eq_pass.2 ⟨_, hfound, rfl⟩

theorem Time.shape_toJson {t : Time} (h : t.Valid) : Time.shape t.toJson = pass t := by
  have htagged {build : Option String → Time} (hbuild : build t.tag? = t) :
      Time.taggedShape build t.toJson = pass t := by
    have htag : Shape.optional t.toJson.members "tag" nonEmptyString = pass t.tag? :=
      optional_nonEmptyString (by simp [toJson, Value.members, List.lookup_append]) h
    exact record_eq_pass.2 ⟨_, rfl, map_eq_pass.2 ⟨_, htag, hbuild⟩, t.keys.mem (by simp)⟩
  cases t with
  | absolute tag => exact variants_eq_pass.2 ⟨_, _, _, rfl, rfl, rfl, htagged rfl⟩
  | commandComplete =>
    exact variants_eq_pass.2 ⟨_, _, _, rfl, rfl, rfl, record_eq_pass.2 ⟨_, rfl, rfl, by
      simp [field, ToJson.optional, tag?]⟩⟩
  | commandRelative tag => exact variants_eq_pass.2 ⟨_, _, _, rfl, rfl, rfl, htagged rfl⟩
  | epochRelative tag => exact variants_eq_pass.2 ⟨_, _, _, rfl, rfl, rfl, htagged rfl⟩

theorem BaseArgument.ofValue_pass {α : Type} {build : α → Option String → BaseArgument}
    {shape : Shape α} {a : BaseArgument} {x : α} (hvalue : shape a.value = pass x)
    (hbuild : build x a.name? = a) : BaseArgument.ofValue build shape a.toJson = pass a := by
  have hfound : required a.toJson.members "value" shape = pass x :=
    required_eq_pass.2 ⟨_, by simp [toJson, Value.members, List.lookup_append], hvalue⟩
  have hname : Shape.optional a.toJson.members "name" Json.Shape.string = pass a.name? :=
    optional_string (by simp [toJson, Value.members, List.lookup_append])
  exact record_eq_pass.2 ⟨_, rfl, seq_eq_pass.2 ⟨_, _, map_eq_pass.2 ⟨_, hfound, rfl⟩, hname,
    hbuild⟩, a.keys.mem (by simp)⟩

/-- A valid argument has the shape that is listed under its kind. -/
theorem BaseArgument.exists_shape {a : BaseArgument} (h : a.Valid) :
    ∃ shape, BaseArgument.shapes.lookup a.kind = some shape ∧ shape a.toJson = pass a := by
  cases a with
  | string s name => exact ⟨_, rfl, ofValue_pass (string_pass s) rfl⟩
  | number n name =>
    refine ⟨_, rfl, ofValue_pass (x := n) (refine_eq_pass.2 ⟨n, rfl, ?_⟩) rfl⟩
    exact if_pos h.1
  | boolean b name => exact ⟨_, rfl, ofValue_pass (boolean_eq_pass.2 rfl) rfl⟩
  | symbol s name =>
    have hword : identifier (.string s) = pass s := matching_eq_pass.2 ⟨rfl, h.1⟩
    refine ⟨_, rfl, ofValue_pass (x := s) (refine_eq_pass.2 ⟨s, hword, ?_⟩) rfl⟩
    exact if_neg (h.2 ▸ Bool.false_ne_true)
  | hex s name => exact ⟨_, rfl, ofValue_pass (matching_eq_pass.2 ⟨rfl, h⟩) rfl⟩

theorem BaseArgument.lookup_type (a : BaseArgument) :
    a.toJson.members.lookup tagName = some (.string a.kind) := by
  simp [toJson, Value.members, List.lookup_append, tagName]

theorem BaseArgument.shape_toJson {a : BaseArgument} (h : a.Valid) :
    BaseArgument.shape a.toJson = pass a := by
  obtain ⟨shape, hlookup, hshape⟩ := exists_shape h
  exact variants_eq_pass.2 ⟨_, _, _, rfl, a.lookup_type, hlookup, hshape⟩

/-- Under its own kind a single argument is listed as it is among the single ones. -/
theorem Argument.lookup_base {a : BaseArgument} {shape : Shape BaseArgument}
    (h : BaseArgument.shapes.lookup a.kind = some shape) :
    ((BaseArgument.shapes.map fun ((name, shape) : String × Shape BaseArgument) =>
        (name, fun v => Argument.base <$> shape v))
      ++ [(("repeat" : String), repetitionShape)]).lookup a.kind = some fun v =>
        Argument.base <$> shape v := by
  cases a <;> cases h <;> rfl

theorem Argument.shape_toJson {a : Argument} (h : a.Valid) :
    Argument.shape a.toJson = pass a := by
  cases a with
  | base a =>
    obtain ⟨shape, hlookup, hshape⟩ := BaseArgument.exists_shape h
    exact variants_eq_pass.2 ⟨_, _, _, rfl, a.lookup_type, lookup_base hlookup,
      map_eq_pass.2 ⟨a, hshape, rfl⟩⟩
  | repetition sets name =>
    have hset : ∀ set ∈ sets, array BaseArgument.shape (.array (set.map BaseArgument.toJson)) =
        pass (set.map id) :=
      fun set hset => array_map fun a ha => BaseArgument.shape_toJson (h set hset a ha)
    have hsets : array (array BaseArgument.shape)
        (.array (sets.map fun set => .array (set.map BaseArgument.toJson))) =
        pass (sets.map fun set => set.map id) := array_map hset
    simp only [List.map_id_fun, id, List.map_id_fun'] at hsets
    have hvalue : required (repetition sets name).toJson.members "value"
        (array (array BaseArgument.shape)) = pass sets :=
      required_eq_pass.2 ⟨_, by simp [toJson, Value.members, List.lookup_append], hsets⟩
    have hname : Shape.optional (repetition sets name).toJson.members "name" string = pass name :=
      optional_string (by simp [toJson, Value.members, List.lookup_append])
    have hrecord : repetitionShape (repetition sets name).toJson = pass (repetition sets name) :=
      record_eq_pass.2 ⟨_, rfl, seq_eq_pass.2 ⟨_, _, map_eq_pass.2 ⟨_, hvalue, rfl⟩, hname, rfl⟩,
        (Argument.keys sets name).mem (by simp)⟩
    exact variants_eq_pass.2 ⟨_, _, _, rfl, rfl, rfl, hrecord⟩

theorem Argument.array_pass {arguments : List Argument} (h : ∀ a ∈ arguments, a.Valid) :
    array Argument.shape (.array (arguments.map Argument.toJson)) = pass arguments := by
  have hmap : array Argument.shape (.array (arguments.map Argument.toJson)) =
      pass (arguments.map id) := array_map fun a ha => Argument.shape_toJson (h a ha)
  rwa [List.map_id] at hmap

/-- A group whose members are all read as they are. -/
theorem group_pass {α : Type} {shape : Shape α} {write : α → Value} {members : Members}
    {name : String} {items : List α}
    (hlookup : members.lookup name =
      if items.isEmpty then none else some (.array (items.map write)))
    (h : ∀ a ∈ items, shape (write a) = pass a) : Shape.group members name shape = pass items := by
  have hmap : Shape.group members name shape = pass (items.map id) := group_map hlookup h
  rwa [List.map_id] at hmap

/-! ## Steps -/

theorem Model.shape_toJson (m : Model) : Model.shape m.toJson = pass m := by
  have hname : required m.toJson.members "variable" string = pass m.variableName :=
    required_eq_pass.2 ⟨_, by simp [toJson, Value.members, List.lookup_append], string_pass _⟩
  have hvalue : required m.toJson.members "value" ModelValue.shape = pass m.value := by
    refine required_eq_pass.2 ⟨m.value.toJson, ?_, by cases m.value <;> rfl⟩
    simp [toJson, Value.members, List.lookup_append]
  have hoffset : required m.toJson.members "offset" string = pass m.offset :=
    required_eq_pass.2 ⟨_, by simp [toJson, Value.members, List.lookup_append], string_pass _⟩
  exact record_eq_pass.2 ⟨_, rfl, seq_eq_pass.2 ⟨_, _, seq_eq_pass.2 ⟨_, _,
    map_eq_pass.2 ⟨_, hname, rfl⟩, hvalue, rfl⟩, hoffset, rfl⟩, m.keys.mem (by simp)⟩

/-- The fields that every kind of step has are read whatever its action is. -/
theorem Step.ofMembers_pass {s : Step} (h : s.Valid)
    {does : Checked (Action × List Argument)} (hdoes : does = pass (s.action, s.arguments)) :
    Step.ofMembers s.toJson.members does = pass (s.mapMetadata Metadata.norm) := by
  have haction (key : String) (hkey : key ∉ s.action.names) :
      (s.action.toJson s.arguments).lookup key = none :=
    List.lookup_eq_none_iff.2 fun m hm => by
      have hmem := (s.action.keys s.arguments).mem (List.Subset.refl _) m hm
      simp only [bne_iff_ne, ne_eq]
      rintro rfl
      exact hkey hmem
  have htime : required s.toJson.members "time" Time.shape = pass s.time :=
    required_eq_pass.2 ⟨_, by simp [toJson, Value.members, List.lookup_append],
      Time.shape_toJson h.time⟩
  have hdescription : Shape.optional s.toJson.members "description" string =
      pass s.description := by
    refine optional_string ?_
    have := haction "description" (by cases s.action <;> simp [Action.names])
    simp [toJson, Value.members, List.lookup_append, this]
  have hmetadata : Metadata.ofMembers s.toJson.members = pass s.metadata.norm := by
    refine Metadata.ofMembers_pass ?_
    have := haction "metadata" (by cases s.action <;> simp [Action.names])
    simp [toJson, Value.members, List.lookup_append, this]
  have hmodels : Shape.group s.toJson.members "models" Model.shape = pass s.models := by
    refine group_pass ?_ fun m _ => Model.shape_toJson m
    have := haction "models" (by cases s.action <;> simp [Action.names])
    simp [toJson, Value.members, List.lookup_append, this]
  exact seq_eq_pass.2 ⟨_, _, seq_eq_pass.2 ⟨_, _, seq_eq_pass.2 ⟨_, _, seq_eq_pass.2 ⟨_, _,
    map_eq_pass.2 ⟨_, htime, rfl⟩, hdescription, rfl⟩, hmetadata, rfl⟩, hmodels, rfl⟩, hdoes, rfl⟩

theorem Step.lookup_toJson {s : Step} {action : Action} (haction : s.action = action)
    {key : String} (hkey : key ∉ [("time" : String), "description", "metadata", "models"]) :
    s.toJson.members.lookup key = (action.toJson s.arguments).lookup key := by
  simp only [List.mem_cons, List.not_mem_nil, or_false, not_or] at hkey
  simp [toJson, Value.members, List.lookup_append, hkey, haction]

section Variants

variable {s : Step}

theorem Step.commandShape_toJson {stem : String} (h : s.Valid)
    (haction : s.action = .command stem) :
    Step.commandShape s.toJson = pass (s.mapMetadata Metadata.norm) := by
  have hvalid := h.action
  have hmem := s.keys
  rw [haction] at hmem hvalid
  have hstem : required s.toJson.members "stem" identifier = pass stem :=
    required_eq_pass.2 ⟨.string stem, by
      rw [lookup_toJson haction (by decide)]; simp [Action.toJson, List.lookup_append],
      matching_eq_pass.2 ⟨rfl, hvalid⟩⟩
  have hargs : Argument.ofMembers s.toJson.members = pass s.arguments :=
    withDefault_eq_pass.2 (.inr ⟨_, by
      rw [lookup_toJson haction (by decide)]; simp [Action.toJson, List.lookup_append],
      Argument.array_pass h.arguments⟩)
  exact record_eq_pass.2 ⟨_, rfl, Step.ofMembers_pass h (seq_eq_pass.2 ⟨_, _,
    map_eq_pass.2 ⟨_, hstem, rfl⟩, hargs, by rw [haction]⟩), hmem.mem (by
      simp [Action.names, commonFields])⟩

theorem Step.callShape_toJson {kind : CallKind} {sequence : String} {engine : Option Int}
    {epoch : Option String} (h : s.Valid) (haction : s.action = .call kind sequence engine epoch) :
    Step.callShape kind s.toJson = pass (s.mapMetadata Metadata.norm) := by
  have hmem := s.keys
  rw [haction] at hmem
  have hsequence : required s.toJson.members "sequence" string = pass sequence :=
    required_eq_pass.2 ⟨.string sequence, by
      rw [lookup_toJson haction (by decide)]; simp [Action.toJson, List.lookup_append],
      string_pass _⟩
  have hargs : Shape.group s.toJson.members "args" Argument.shape = pass s.arguments :=
    group_pass (by rw [lookup_toJson haction (by decide)]; simp [Action.toJson, List.lookup_append])
      fun a ha => Argument.shape_toJson (h.arguments a ha)
  have hengine : Shape.optional s.toJson.members "engine" lenientInt = pass engine :=
    optional_pass (fun n : Int => Value.number (.int n))
      (by rw [lookup_toJson haction (by decide)]; simp [Action.toJson, List.lookup_append])
      fun n _ => ⟨by rintro ⟨⟩, rfl⟩
  have hepoch : Shape.optional s.toJson.members "epoch" string = pass epoch :=
    optional_string (by
      rw [lookup_toJson haction (by decide)]; simp [Action.toJson, List.lookup_append])
  exact record_eq_pass.2 ⟨_, rfl, Step.ofMembers_pass h (seq_eq_pass.2 ⟨_, _, seq_eq_pass.2 ⟨_, _,
    seq_eq_pass.2 ⟨_, _, map_eq_pass.2 ⟨_, hsequence, rfl⟩, hargs, rfl⟩, hengine, rfl⟩, hepoch,
    by rw [haction]⟩), hmem.mem (by simp [Action.names, commonFields])⟩

theorem Step.groundShape_toJson {kind : GroundKind} {name : String} (h : s.Valid)
    (haction : s.action = .ground kind name) :
    Step.groundShape kind s.toJson = pass (s.mapMetadata Metadata.norm) := by
  have hmem := s.keys
  rw [haction] at hmem
  have hname : required s.toJson.members "name" string = pass name :=
    required_eq_pass.2 ⟨.string name, by
      rw [lookup_toJson haction (by decide)]; simp [Action.toJson, List.lookup_append],
      string_pass _⟩
  have hargs : Shape.group s.toJson.members "args" Argument.shape = pass s.arguments :=
    group_pass (by rw [lookup_toJson haction (by decide)]; simp [Action.toJson, List.lookup_append])
      fun a ha => Argument.shape_toJson (h.arguments a ha)
  exact record_eq_pass.2 ⟨_, rfl, Step.ofMembers_pass h (seq_eq_pass.2 ⟨_, _,
    map_eq_pass.2 ⟨_, hname, rfl⟩, hargs, by rw [haction]⟩), hmem.mem (by
      simp [Action.names, commonFields])⟩

end Variants

theorem Step.shape_toJson {s : Step} (h : s.Valid) :
    Step.shape s.toJson = pass (s.mapMetadata Metadata.norm) := by
  cases haction : s.action with
  | command stem =>
    have hkind : s.toJson.members.lookup tagName = some (.string "command") :=
      lookup_toJson haction (by decide)
    exact variants_eq_pass.2 ⟨_, _, _, rfl, hkind, rfl, commandShape_toJson h haction⟩
  | call kind sequence engine epoch =>
    have hkind : s.toJson.members.lookup tagName = some (.string kind.name) :=
      lookup_toJson haction (by decide)
    cases kind
    · exact variants_eq_pass.2 ⟨_, _, _, rfl, hkind, rfl, callShape_toJson h haction⟩
    · exact variants_eq_pass.2 ⟨_, _, _, rfl, hkind, rfl, callShape_toJson h haction⟩
  | ground kind name =>
    have hkind : s.toJson.members.lookup tagName = some (.string kind.name) :=
      lookup_toJson haction (by decide)
    cases kind
    · exact variants_eq_pass.2 ⟨_, _, _, rfl, hkind, rfl, groundShape_toJson h haction⟩
    · exact variants_eq_pass.2 ⟨_, _, _, rfl, hkind, rfl, groundShape_toJson h haction⟩

/-! ## Requests and sections -/

theorem GroundEpoch.shape_toJson {g : GroundEpoch} (h : g.Valid) :
    GroundEpoch.shape g.toJson = pass g := by
  have hname : Shape.optional g.toJson.members "name" nonEmptyString = pass g.name :=
    optional_nonEmptyString (by simp [toJson, Value.members, List.lookup_append]) h.name
  have hdelta : Shape.optional g.toJson.members "delta" nonEmptyString = pass g.delta :=
    optional_nonEmptyString (by simp [toJson, Value.members, List.lookup_append]) h.delta
  exact record_eq_pass.2 ⟨_, rfl, seq_eq_pass.2 ⟨_, _, map_eq_pass.2 ⟨_, hname, rfl⟩, hdelta, rfl⟩,
    g.keys.mem (by simp)⟩

theorem Request.shape_toJson {r : Request} (h : r.Valid) :
    Request.shape r.toJson = pass (r.mapMetadata Metadata.norm) := by
  have hkind : withDefault r.toJson.members "type" () Request.kindShape = pass () :=
    withDefault_eq_pass.2 (.inr ⟨.string "request", by
      simp [toJson, Value.members, List.lookup_append], rfl⟩)
  have hname : required r.toJson.members "name" string = pass r.name :=
    required_eq_pass.2 ⟨_, by simp [toJson, Value.members, List.lookup_append], string_pass _⟩
  have hsteps : required r.toJson.members "steps" (filledArray Step.shape) =
      pass (r.steps.map (Step.mapMetadata Metadata.norm)) :=
    required_eq_pass.2 ⟨_, by simp [toJson, Value.members, List.lookup_append],
      filledArray_map h.filled fun s hs => Step.shape_toJson (h.steps s hs)⟩
  have htime : Shape.optional r.toJson.members "time" Time.shape = pass r.time :=
    optional_pass Time.toJson (by simp [toJson, Value.members, List.lookup_append])
      fun t ht => ⟨nofun, Time.shape_toJson (h.time t ht)⟩
  have hepoch : Shape.optional r.toJson.members "ground_epoch" GroundEpoch.shape =
      pass r.groundEpoch :=
    optional_pass GroundEpoch.toJson (by simp [toJson, Value.members, List.lookup_append])
      fun g hg => ⟨nofun, GroundEpoch.shape_toJson (h.groundEpoch g hg)⟩
  have hdescription : Shape.optional r.toJson.members "description" string =
      pass r.description :=
    optional_string (by simp [toJson, Value.members, List.lookup_append])
  have hmetadata : Metadata.ofMembers r.toJson.members = pass r.metadata.norm :=
    Metadata.ofMembers_pass (by simp [toJson, Value.members, List.lookup_append])
  exact record_eq_pass.2 ⟨_, rfl, seq_eq_pass.2 ⟨_, _, seq_eq_pass.2 ⟨_, _, seq_eq_pass.2 ⟨_, _,
    seq_eq_pass.2 ⟨_, _, seq_eq_pass.2 ⟨_, _, seq_eq_pass.2 ⟨_, _, map_eq_pass.2 ⟨_, hkind, rfl⟩,
    hname, rfl⟩, hsteps, rfl⟩, htime, rfl⟩, hepoch, rfl⟩, hdescription, rfl⟩, hmetadata, rfl⟩,
    r.keys.mem (by simp)⟩

theorem sectionStem_pass {stem : String} (h : IsSectionStem stem) :
    sectionStem (.string stem) = pass stem :=
  refine_eq_pass.2 ⟨stem, matching_eq_pass.2 ⟨rfl, h.1⟩, if_neg (h.2 ▸ Bool.false_ne_true)⟩

theorem ImmediateCommand.shape_toJson {c : ImmediateCommand} (h : c.Valid) :
    ImmediateCommand.shape c.toJson = pass (c.mapMetadata Metadata.norm) := by
  have hstem : required c.toJson.members "stem" sectionStem = pass c.stem :=
    required_eq_pass.2 ⟨_, by simp [toJson, Value.members, List.lookup_append],
      sectionStem_pass h.stem⟩
  have hargs : Argument.ofMembers c.toJson.members = pass c.arguments :=
    withDefault_eq_pass.2 (.inr ⟨_, by simp [toJson, Value.members, List.lookup_append],
      Argument.array_pass h.arguments⟩)
  have hdescription : Shape.optional c.toJson.members "description" string =
      pass c.description :=
    optional_string (by simp [toJson, Value.members, List.lookup_append])
  have hmetadata : Metadata.ofMembers c.toJson.members = pass c.metadata.norm :=
    Metadata.ofMembers_pass (by simp [toJson, Value.members, List.lookup_append])
  exact record_eq_pass.2 ⟨_, rfl, seq_eq_pass.2 ⟨_, _, seq_eq_pass.2 ⟨_, _, seq_eq_pass.2 ⟨_, _,
    map_eq_pass.2 ⟨_, hstem, rfl⟩, hargs, rfl⟩, hdescription, rfl⟩, hmetadata, rfl⟩,
    c.keys.mem (by simp)⟩

theorem HardwareCommand.shape_toJson {c : HardwareCommand} (h : c.Valid) :
    HardwareCommand.shape c.toJson = pass (c.mapMetadata Metadata.norm) := by
  have hstem : required c.toJson.members "stem" sectionStem = pass c.stem :=
    required_eq_pass.2 ⟨_, by simp [toJson, Value.members, List.lookup_append],
      sectionStem_pass h.stem⟩
  have hdescription : Shape.optional c.toJson.members "description" string =
      pass c.description :=
    optional_string (by simp [toJson, Value.members, List.lookup_append])
  have hmetadata : Metadata.ofMembers c.toJson.members = pass c.metadata.norm :=
    Metadata.ofMembers_pass (by simp [toJson, Value.members, List.lookup_append])
  exact record_eq_pass.2 ⟨_, rfl, seq_eq_pass.2 ⟨_, _, seq_eq_pass.2 ⟨_, _,
    map_eq_pass.2 ⟨_, hstem, rfl⟩, hdescription, rfl⟩, hmetadata, rfl⟩, c.keys.mem (by simp)⟩

/-! ## Declarations and documents -/

theorem Range.shape_toJson (r : Range) : Range.shape r.toJson = pass r := by
  have hmin : required r.toJson.members "min" number = pass r.min :=
    required_eq_pass.2 ⟨.number r.min, by simp [toJson, Value.members, List.lookup_append], rfl⟩
  have hmax : required r.toJson.members "max" number = pass r.max :=
    required_eq_pass.2 ⟨.number r.max, by simp [toJson, Value.members, List.lookup_append], rfl⟩
  exact record_eq_pass.2 ⟨_, rfl, seq_eq_pass.2 ⟨_, _, map_eq_pass.2 ⟨_, hmin, rfl⟩, hmax, rfl⟩,
    r.keys.mem (by simp)⟩

theorem VariableType.ofKeyword?_keyword (t : VariableType) : ofKeyword? t.keyword = some t := by
  cases t <;> rfl

theorem Declaration.shape_toJson {d : Declaration} (h : d.Valid) :
    Declaration.shape d.toJson = pass d := by
  have hname : required d.toJson.members "name" identifier = pass d.name :=
    required_eq_pass.2 ⟨_, by simp [toJson, Value.members, List.lookup_append],
      matching_eq_pass.2 ⟨rfl, h.name⟩⟩
  have htype : Shape.optional d.toJson.members "type" VariableType.shape =
      pass d.type :=
    optional_pass (fun t : VariableType => Value.string t.keyword)
      (by simp [toJson, Value.members, List.lookup_append])
      fun t _ => ⟨nofun, choice_eq_pass.2 ⟨_, rfl, t.ofKeyword?_keyword⟩⟩
  have henum : Shape.optional d.toJson.members "enum_name" identifier =
      pass d.enumName :=
    optional_pass Value.string (by simp [toJson, Value.members, List.lookup_append])
      fun s hs => ⟨nofun, matching_eq_pass.2 ⟨rfl, h.enumName s hs⟩⟩
  have hranges : Shape.group d.toJson.members "allowable_ranges" Range.shape = pass d.ranges :=
    group_pass (by simp [toJson, Value.members, List.lookup_append]) fun r _ => r.shape_toJson
  have hvalues : Shape.group d.toJson.members "allowable_values" AllowableValue.shape =
      pass d.values := by
    have hvalue : ∀ v ∈ d.values, AllowableValue.shape v.toJson = pass v := fun v _ => by
      cases v <;> rfl
    exact group_pass (by simp [toJson, Value.members, List.lookup_append]) hvalue
  exact record_eq_pass.2 ⟨_, rfl, seq_eq_pass.2 ⟨_, _, seq_eq_pass.2 ⟨_, _, seq_eq_pass.2 ⟨_, _,
    seq_eq_pass.2 ⟨_, _, map_eq_pass.2 ⟨_, hname, rfl⟩, htype, rfl⟩, henum, rfl⟩, hranges, rfl⟩,
    hvalues, rfl⟩, d.keys.mem (by simp)⟩

/-- The object of a valid document is read as the document, but for numbers of metadata that are
not finite. -/
theorem Document.shape_toJson {d : Document} (h : d.Valid) :
    Document.shape d.toJson = pass d.norm := by
  have hid : required d.toJson.members "id" string = pass d.id :=
    required_eq_pass.2 ⟨_, by simp [toJson, Value.members, List.lookup_append], string_pass _⟩
  have hmetadata : withDefault d.toJson.members "metadata" [] Metadata.shape =
      pass d.metadata.norm :=
    withDefault_eq_pass.2
      (.inr ⟨d.metadata.toJson, by simp [toJson, Value.members, List.lookup_append], rfl⟩)
  have hparameters : Shape.group d.toJson.members "parameters" Declaration.shape =
      pass d.parameters :=
    group_pass (by simp [toJson, Value.members, List.lookup_append])
      fun p hp => Declaration.shape_toJson (h.parameters p hp)
  have hlocals : Shape.group d.toJson.members "locals" Declaration.shape = pass d.locals :=
    group_pass (by simp [toJson, Value.members, List.lookup_append])
      fun p hp => Declaration.shape_toJson (h.locals p hp)
  have hsteps : Shape.group d.toJson.members "steps" Step.shape =
      pass (d.steps.map (Step.mapMetadata Metadata.norm)) :=
    group_map (by simp [toJson, Value.members, List.lookup_append])
      fun s hs => Step.shape_toJson (h.steps s hs)
  have himmediate : Shape.group d.toJson.members "immediate_commands" ImmediateCommand.shape =
      pass (d.immediateCommands.map (ImmediateCommand.mapMetadata Metadata.norm)) :=
    group_map (by simp [toJson, Value.members, List.lookup_append])
      fun c hc => ImmediateCommand.shape_toJson (h.immediateCommands c hc)
  have hhardware : Shape.group d.toJson.members "hardware_commands" HardwareCommand.shape =
      pass (d.hardwareCommands.map (HardwareCommand.mapMetadata Metadata.norm)) :=
    group_map (by simp [toJson, Value.members, List.lookup_append])
      fun c hc => HardwareCommand.shape_toJson (h.hardwareCommands c hc)
  have hrequests : Shape.group d.toJson.members "requests" Request.shape =
      pass (d.requests.map (Request.mapMetadata Metadata.norm)) :=
    group_map (by simp [toJson, Value.members, List.lookup_append])
      fun r hr => Request.shape_toJson (h.requests r hr)
  exact record_eq_pass.2 ⟨_, rfl, seq_eq_pass.2 ⟨_, _, seq_eq_pass.2 ⟨_, _, seq_eq_pass.2 ⟨_, _,
    seq_eq_pass.2 ⟨_, _, seq_eq_pass.2 ⟨_, _, seq_eq_pass.2 ⟨_, _, seq_eq_pass.2 ⟨_, _,
    map_eq_pass.2 ⟨_, hid, rfl⟩, hmetadata, rfl⟩, hparameters, rfl⟩, hlocals, rfl⟩, hsteps, rfl⟩,
    himmediate, rfl⟩, hhardware, rfl⟩, hrequests, rfl⟩, d.keys.mem (by simp)⟩

end CommandSequence
