import CommandSequence.Proofs.Document.Valid

/-!
# The objects of a document

The objects that a valid document is written as are sound (`Document.Valid.sound_toJson`). The
fields of a record are looked up by their names, and their keys are some of the record's names in
their order, so they are distinct.
-/

namespace CommandSequence

open Json (Value)
open ToJson (field optional group)

variable {α : Type} {name key : String} {write : α → Value} {p : Number → Prop}

namespace ToJson

/-! ## Looking fields up -/

@[simp]
theorem lookup_field {v : Value} :
    (field name v).lookup key = if key = name then some v else none := by
  by_cases h : key = name
  · simp [field, h]
  · simp [field, h]

@[simp]
theorem lookup_optional {o : Option α} :
    (optional name write o).lookup key = if key = name then o.map write else none := by
  cases o with
  | none => simp [optional]
  | some a =>
    by_cases h : key = name
    · simp [optional, h]
    · simp [optional, h]

@[simp]
theorem lookup_group {items : List α} :
    (group name write items).lookup key =
      if key = name then if items.isEmpty then none else some (.array (items.map write))
      else none := by
  cases items with
  | nil => simp [group]
  | cons a items =>
    by_cases h : key = name
    · simp [group, h]
    · simp [group, h]

@[simp]
theorem lookup_metadata {m : Metadata} :
    m.field.lookup key = if key = "metadata" then if m.isEmpty then none else some m.toJson
      else none := by
  unfold Metadata.field
  split
  · simp
  · by_cases h : key = "metadata"
    · simp [h]
    · simp [h]

/-! ## All the fields -/

variable {P : String × Value → Prop}

theorem forall_mem_field {v : Value} : (∀ m ∈ field name v, P m) ↔ P (name, v) := by
  simp [field]

theorem forall_mem_optional {o : Option α} :
    (∀ m ∈ optional name write o, P m) ↔ ∀ a, o = some a → P (name, write a) := by
  cases o <;> simp [optional]

theorem forall_mem_group {items : List α} :
    (∀ m ∈ group name write items, P m) ↔
      (items ≠ [] → P (name, .array (items.map write))) := by
  cases items <;> simp [group]

theorem forall_mem_metadata {m : Metadata} :
    (∀ x ∈ m.field, P x) ↔ (m ≠ [] → P ("metadata", m.toJson)) := by
  cases m <;> simp [Metadata.field]

/-- The keys of members are some of the given names, in their order. -/
def Keys (members : List (String × Value)) (names : List String) : Prop :=
  (members.map Prod.fst).Sublist names

theorem keys_field {v : Value} : Keys (field name v) [name] :=
  List.Sublist.refl _

theorem keys_optional {o : Option α} : Keys (optional name write o) [name] := by
  cases o with
  | none => exact List.nil_sublist _
  | some a => exact List.Sublist.refl _

theorem keys_group {items : List α} : Keys (group name write items) [name] := by
  cases items with
  | nil => exact List.nil_sublist _
  | cons a items => exact List.Sublist.refl _

theorem keys_metadata {m : Metadata} : Keys m.field ["metadata"] := by
  cases m with
  | nil => exact List.nil_sublist _
  | cons => exact List.Sublist.refl _

theorem Keys.append {members more : List (String × Value)} {names others : List String}
    (h : Keys members names) (h' : Keys more others) :
    Keys (members ++ more) (names ++ others) := by
  unfold Keys at h h' ⊢
  rw [List.map_append]
  exact List.Sublist.append h h'

theorem Keys.distinct {members : List (String × Value)} {names : List String}
    (h : Keys members names) (hnames : names.Nodup) : Dictionary.Distinct members :=
  hnames.sublist h

theorem Keys.mem {members : List (String × Value)} {names known : List String}
    (h : Keys members names) (hknown : names ⊆ known) : ∀ m ∈ members, m.1 ∈ known :=
  fun _ hm => hknown (h.subset (List.mem_map_of_mem hm))

end ToJson

open ToJson

/-! ## The keys of records -/

/-- The members of an object. -/
def Json.Value.members : Value → List (String × Value)
  | .object members => members
  | _ => []

theorem Time.keys (t : Time) : Keys t.toJson.members ["type", "tag"] :=
  keys_field.append keys_optional

theorem BaseArgument.keys (a : BaseArgument) : Keys a.toJson.members ["type", "value", "name"] :=
  (keys_field.append keys_field).append keys_optional

theorem Argument.keys (sets : List (List BaseArgument)) (name : Option String) :
    Keys (Argument.repetition sets name).toJson.members ["type", "value", "name"] :=
  (keys_field.append keys_field).append keys_optional

theorem Model.keys (m : Model) : Keys m.toJson.members ["variable", "value", "offset"] :=
  (keys_field.append keys_field).append keys_field

/-- The names of the fields of an action. -/
def Action.names : Action → List String
  | .command _ => ["type", "stem", "args"]
  | .call .. => ["type", "sequence", "args", "engine", "epoch"]
  | .ground .. => ["type", "name", "args"]

theorem Action.keys (arguments : List Argument) (a : Action) :
    Keys (a.toJson arguments) a.names := by
  cases a with
  | command stem => exact (keys_field.append keys_field).append keys_field
  | call kind sequence engine epoch =>
    exact (((keys_field.append keys_field).append keys_group).append keys_optional).append
      keys_optional
  | ground kind name => exact (keys_field.append keys_field).append keys_group

theorem Step.keys (s : Step) : Keys s.toJson.members
    ([("time" : String), "description", "metadata", "models"] ++ s.action.names) :=
  (((keys_field.append keys_optional).append keys_metadata).append keys_group).append
    (s.action.keys s.arguments)

theorem GroundEpoch.keys (g : GroundEpoch) : Keys g.toJson.members ["name", "delta"] :=
  keys_optional.append keys_optional

theorem Request.keys (r : Request) : Keys r.toJson.members
    ["type", "name", "steps", "time", "ground_epoch", "description", "metadata"] :=
  ((((((keys_field.append keys_field).append keys_field).append keys_optional).append
    keys_optional).append keys_optional).append keys_metadata)

theorem ImmediateCommand.keys (c : ImmediateCommand) :
    Keys c.toJson.members ["stem", "args", "description", "metadata"] :=
  ((keys_field.append keys_field).append keys_optional).append keys_metadata

theorem HardwareCommand.keys (c : HardwareCommand) :
    Keys c.toJson.members ["stem", "description", "metadata"] :=
  (keys_field.append keys_optional).append keys_metadata

theorem Range.keys (r : Range) : Keys r.toJson.members ["min", "max"] :=
  keys_field.append keys_field

theorem Declaration.keys (d : Declaration) : Keys d.toJson.members
    ["name", "type", "enum_name", "allowable_ranges", "allowable_values"] :=
  (((keys_field.append keys_optional).append keys_optional).append keys_group).append keys_group

theorem Document.keys (d : Document) : Keys d.toJson.members
    ["id", "metadata", "parameters", "locals", "steps", "immediate_commands",
      "hardware_commands", "requests"] :=
  (((((((keys_field.append keys_field).append keys_group).append keys_group).append
    keys_group).append keys_group).append keys_group).append keys_group)

theorem Step.names_encodable (a : Action) :
    ∀ name ∈ [("time" : String), "description", "metadata", "models"] ++ a.names,
      name.isEncodable = true := by
  cases a <;> exact List.all_eq_true.1 rfl

theorem Step.names_nodup (a : Action) :
    ([("time" : String), "description", "metadata", "models"] ++ a.names).Nodup := by
  cases a <;> simp [Action.names]

/-! ## Soundness -/

/-- The members of an object are sound, field by field. -/
theorem sound_items {items : List α} (h : ∀ a ∈ items, (write a).Sound p) :
    (Value.array (items.map write)).Sound p :=
  .array (List.forall_mem_map.2 h)

theorem Metadata.sound_toJson {m : Metadata} (h : m.Valid) :
    m.toJson.Sound (Number.Fits false) :=
  h.nullNonFinite.1.mono fun _ hn => hn.1

theorem Time.sound_toJson (t : Time) : t.toJson.Sound p := by
  refine .object (t.keys.distinct (by decide)) ?_
  simp only [List.forall_mem_append, forall_mem_field, forall_mem_optional]
  exact ⟨.string _, fun _ _ => .string _⟩

theorem BaseArgument.sound_toJson {a : BaseArgument} (h : a.Valid) :
    a.toJson.Sound (Number.Fits false) := by
  have hvalue : a.value.Sound (Number.Fits false) := by
    cases a with
    | number n name => exact .number h.2
    | boolean b name => exact .boolean b
    | string s name | symbol s name | hex s name => exact .string s
  refine .object (a.keys.distinct (by decide)) ?_
  simp only [List.forall_mem_append, forall_mem_field, forall_mem_optional]
  exact ⟨⟨.string _, hvalue⟩, fun _ _ => .string _⟩

theorem Argument.sound_toJson {a : Argument} (h : a.Valid) :
    a.toJson.Sound (Number.Fits false) := by
  cases a with
  | base a => exact BaseArgument.sound_toJson h
  | repetition sets name =>
    refine .object ((Argument.keys sets name).distinct (by decide)) ?_
    simp only [List.forall_mem_append, forall_mem_field, forall_mem_optional]
    refine ⟨⟨.string _, sound_items fun set hset => sound_items fun a ha => ?_⟩,
      fun _ _ => .string _⟩
    exact BaseArgument.sound_toJson (h set hset a ha)

theorem Model.sound_toJson {m : Model} (h : m.value.Valid) :
    m.toJson.Sound (Number.Fits false) := by
  have hvalue : m.value.toJson.Sound (Number.Fits false) := by
    cases hm : m.value with
    | number n => rw [hm] at h; exact .number h
    | boolean b => exact .boolean b
    | string s => exact .string s
  refine .object (m.keys.distinct (by decide)) ?_
  simp only [List.forall_mem_append, forall_mem_field]
  exact ⟨⟨.string _, hvalue⟩, .string _⟩

theorem Step.sound_toJson {s : Step} (h : s.Valid) : s.toJson.Sound (Number.Fits false) := by
  have harguments : (Value.array (s.arguments.map Argument.toJson)).Sound (Number.Fits false) :=
    sound_items fun a ha => Argument.sound_toJson (h.arguments a ha)
  have haction : ∀ m ∈ s.action.toJson s.arguments, m.2.Sound (Number.Fits false) := by
    have hvalid := h.action
    cases haction : s.action with
    | command stem =>
      simp only [Action.toJson, List.forall_mem_append, forall_mem_field]
      exact ⟨⟨.string _, .string _⟩, harguments⟩
    | call kind sequence engine epoch =>
      rw [haction] at hvalid
      simp only [Action.toJson, List.forall_mem_append, forall_mem_field, forall_mem_group,
        forall_mem_optional]
      exact ⟨⟨⟨⟨.string _, .string _⟩, fun _ => harguments⟩, fun n hn => .number (hvalid n hn)⟩,
        fun _ _ => .string _⟩
    | ground kind name =>
      simp only [Action.toJson, List.forall_mem_append, forall_mem_field, forall_mem_group]
      exact ⟨⟨.string _, .string _⟩, fun _ => harguments⟩
  refine .object (s.keys.distinct (Step.names_nodup s.action)) ?_
  rw [List.forall_mem_append]
  refine ⟨?_, haction⟩
  simp only [List.forall_mem_append, forall_mem_field, forall_mem_optional, forall_mem_metadata,
    forall_mem_group]
  exact ⟨⟨⟨s.time.sound_toJson, fun _ _ => .string _⟩, fun _ => Metadata.sound_toJson h.metadata⟩,
    fun _ => sound_items fun m hm => Model.sound_toJson (h.models m hm)⟩

theorem GroundEpoch.sound_toJson (g : GroundEpoch) : g.toJson.Sound p := by
  refine .object (g.keys.distinct (by decide)) ?_
  simp only [List.forall_mem_append, forall_mem_optional]
  exact ⟨fun _ _ => .string _, fun _ _ => .string _⟩

theorem Request.sound_toJson {r : Request} (h : r.Valid) : r.toJson.Sound (Number.Fits false) := by
  refine .object (r.keys.distinct (by decide)) ?_
  simp only [List.forall_mem_append, forall_mem_field, forall_mem_optional, forall_mem_metadata]
  exact ⟨⟨⟨⟨⟨⟨.string _, .string _⟩, sound_items fun s hs => Step.sound_toJson (h.steps s hs)⟩,
    fun t _ => t.sound_toJson⟩, fun g _ => g.sound_toJson⟩, fun _ _ => .string _⟩,
    fun _ => Metadata.sound_toJson h.metadata⟩

theorem ImmediateCommand.sound_toJson {c : ImmediateCommand} (h : c.Valid) :
    c.toJson.Sound (Number.Fits false) := by
  refine .object (c.keys.distinct (by decide)) ?_
  simp only [List.forall_mem_append, forall_mem_field, forall_mem_optional, forall_mem_metadata]
  exact ⟨⟨⟨.string _, sound_items fun a ha => Argument.sound_toJson (h.arguments a ha)⟩,
    fun _ _ => .string _⟩, fun _ => Metadata.sound_toJson h.metadata⟩

theorem HardwareCommand.sound_toJson {c : HardwareCommand} (h : c.Valid) :
    c.toJson.Sound (Number.Fits false) := by
  refine .object (c.keys.distinct (by decide)) ?_
  simp only [List.forall_mem_append, forall_mem_field, forall_mem_optional, forall_mem_metadata]
  exact ⟨⟨.string _, fun _ _ => .string _⟩, fun _ => Metadata.sound_toJson h.metadata⟩

theorem Range.sound_toJson {r : Range} (h : r.Valid) : r.toJson.Sound (Number.Fits false) := by
  refine .object (r.keys.distinct (by decide)) ?_
  simp only [List.forall_mem_append, forall_mem_field]
  exact ⟨.number h.min, .number h.max⟩

theorem AllowableValue.sound_toJson {v : AllowableValue} (h : v.Valid) :
    v.toJson.Sound (Number.Fits false) := by
  cases v with
  | number n => exact .number h
  | text s => exact .string s

theorem Declaration.sound_toJson {d : Declaration} (h : d.Valid) :
    d.toJson.Sound (Number.Fits false) := by
  refine .object (d.keys.distinct (by decide)) ?_
  simp only [List.forall_mem_append, forall_mem_field, forall_mem_optional, forall_mem_group]
  exact ⟨⟨⟨⟨.string _, fun _ _ => .string _⟩, fun _ _ => .string _⟩,
    fun _ => sound_items fun r hr => Range.sound_toJson (h.ranges r hr)⟩,
    fun _ => sound_items fun v hv => AllowableValue.sound_toJson (h.values v hv)⟩

/-- The object of a valid document is sound. -/
theorem Document.Valid.sound_toJson {d : Document} (h : d.Valid) :
    d.toJson.Sound (Number.Fits false) := by
  refine .object (d.keys.distinct (by decide)) ?_
  simp only [List.forall_mem_append, forall_mem_field, forall_mem_group]
  exact ⟨⟨⟨⟨⟨⟨⟨.string _, Metadata.sound_toJson h.metadata⟩,
    fun _ => sound_items fun p hp => Declaration.sound_toJson (h.parameters p hp)⟩,
    fun _ => sound_items fun p hp => Declaration.sound_toJson (h.locals p hp)⟩,
    fun _ => sound_items fun s hs => Step.sound_toJson (h.steps s hs)⟩,
    fun _ => sound_items fun c hc => ImmediateCommand.sound_toJson (h.immediateCommands c hc)⟩,
    fun _ => sound_items fun c hc => HardwareCommand.sound_toJson (h.hardwareCommands c hc)⟩,
    fun _ => sound_items fun r hr => Request.sound_toJson (h.requests r hr)⟩

/-! ## Strings -/

section

variable {members more : List (String × Value)} {name : Literal}

namespace Json.Value

theorem membersEncodable_append : membersEncodable (members ++ more) =
    (membersEncodable members && membersEncodable more) := by
  induction members with
  | nil => rfl
  | cons member members ih =>
    simp only [List.cons_append, membersEncodable, ih, Bool.and_assoc]

theorem membersEncodable_field {v : Value} :
    membersEncodable (field name v) = v.isEncodable := by
  simp [field, membersEncodable]

theorem membersEncodable_optional {o : Option α} : membersEncodable (optional name write o) = true ↔
    ∀ a, o = some a → (write a).isEncodable = true := by
  cases o <;> simp [ToJson.optional, membersEncodable]

theorem isEncodable_map {items : List α} : (Value.array (items.map write)).isEncodable = true ↔
    ∀ a ∈ items, (write a).isEncodable = true := by
  rw [isEncodable_array, List.forall_mem_map]

theorem membersEncodable_group {items : List α} : membersEncodable (group name write items) = true ↔
    ∀ a ∈ items, (write a).isEncodable = true := by
  rw [← isEncodable_map]
  cases items <;> simp [group, membersEncodable, isEncodable, itemsEncodable]

theorem membersEncodable_metadata {m : Metadata} (h : m.Valid) :
    membersEncodable m.field = true ↔ (Value.object m).isEncodable = true := by
  rw [← Sound.isEncodable_nullNonFinite h, Metadata.field]
  cases m with
  | nil => exact iff_of_true rfl rfl
  | cons entry m => simp [membersEncodable, Metadata.toJson]

/-- UTF-8 has bytes for the entries of metadata if it has bytes for their field. -/
theorem entries_encodable {m : Metadata} (h : m.Valid)
    (hs : membersEncodable m.field = true) :
    ∀ entry ∈ m, entry.1.isEncodable = true ∧ entry.2.isEncodable = true :=
  isEncodable_object.1 ((membersEncodable_metadata h).1 hs)

end Json.Value

end

end CommandSequence
