import CommandSequence.Document.OfJson
import CommandSequence.Proofs.Document.ReadBack

/-!
# Documents read from JSON

A document read from a value that keeps the limits of documents is valid, and its own object keeps
the limits too (`Document.shape_keeps`): every array, object and string that is written stands where
one stood in the value that was read. Only the depth that is left changes on the way, so the limits
are those of documents with another depth.
-/

namespace CommandSequence

open Json (Value Checked Shape Members Demands)
open Json.Checked (pass pass_inj fail_ne_pass refine_eq_pass map_eq_pass seq_eq_pass)
open Json.Shape
open ToJson hiding optional group

namespace Json

variable {α β : Type} {shape : Shape α} {write : α → Value} {P : α → Prop} {limit : Nat}
  {members : Members} {name : String}

/-- What is demanded of a part of a document with so much depth left. -/
def Demands.within (limit : Nat) : Demands :=
  { Demands.document with depth := limit }

/-- A shape passes only data of which `P` holds, and whatever limits the value keeps that it reads,
the value that is written of the data keeps them too. -/
def Shape.Keeps (shape : Shape α) (write : α → Value) (P : α → Prop) : Prop :=
  ∀ ⦃limit : Nat⦄ ⦃v : Value⦄ ⦃a : α⦄, shape v = pass a → v.Fits (.within limit) →
    P a ∧ (write a).Fits (.within limit)

theorem Value.Fits.isEncodable {v : Value} (h : v.Fits (.within limit)) : v.isEncodable = true :=
  h.2.2.resolve_left nofun

theorem Value.fits_string {s : String} (h : s.isEncodable = true) :
    (Value.string s).Fits (.within limit) :=
  ⟨.string s, Nat.zero_le _, .inr h⟩

theorem Value.Fits.forall_items {items : List Value} (h : (Value.array items).Fits (.within limit))
    (hne : items ≠ []) : 0 < limit ∧ ∀ v ∈ items, v.Fits (.within (limit - 1)) := by
  have hencodable := isEncodable_array.1 h.isEncodable
  obtain ⟨hsound, hdepth, -⟩ := h
  obtain ⟨hpos, hitems⟩ := (depth_array_le.1 hdepth).resolve_left hne
  cases hsound with
  | array h => exact ⟨hpos, fun v hv => ⟨h v hv, hitems v hv, .inr (hencodable v hv)⟩⟩

theorem Value.Fits.forall_members (h : (Value.object members).Fits (.within limit))
    (hne : members ≠ []) : 0 < limit ∧ ∀ m ∈ members, m.2.Fits (.within (limit - 1)) := by
  have hencodable := isEncodable_object.1 h.isEncodable
  obtain ⟨hsound, hdepth, -⟩ := h
  obtain ⟨hpos, hmembers⟩ := (depth_object_le.1 hdepth).resolve_left hne
  cases hsound with
  | object _ h => exact ⟨hpos, fun m hm => ⟨h m hm, hmembers m hm, .inr (hencodable m hm).2⟩⟩

/-- An object whose members keep the limits one level deeper. -/
theorem Value.Fits.record {names : List String} {written : Members} (hkeys : Keys written names)
    (hnames : names.Nodup ∧ ∀ name ∈ names, name.isEncodable = true) (hpos : 0 < limit)
    (h : ∀ m ∈ written, m.2.Fits (.within (limit - 1))) :
    (Value.object written).Fits (.within limit) :=
  .object (hkeys.distinct hnames.1) hpos
    (fun m hm => .inr (hnames.2 _ (hkeys.mem (fun _ => id) m hm))) h

theorem ne_nil_of_lookup {v : Value} (h : members.lookup name = some v) : members ≠ [] := by
  rintro rfl
  cases h

theorem fits_of_lookup {v : Value} (hmembers : ∀ m ∈ members, m.2.Fits (.within limit))
    (h : members.lookup name = some v) : v.Fits (.within limit) :=
  hmembers _ (Dictionary.mem_of_get? h)

namespace Shape

/-! ## Combinators -/

theorem string_keeps : string.Keeps Value.string fun _ => True := by
  intro limit v s h hv
  cases string_eq_pass.1 h
  exact ⟨trivial, hv⟩

theorem nonEmptyString_keeps :
    nonEmptyString.Keeps Value.string fun s => s ≠ "" ∧ s.isEncodable = true := by
  intro limit v s h hv
  obtain ⟨rfl, hne⟩ := nonEmptyString_eq_pass.1 h
  exact ⟨⟨hne, hv.isEncodable⟩, hv⟩

theorem matching_keeps {pattern : String} {accepts : List Char → Bool} :
    (matching pattern accepts).Keeps Value.string fun s => accepts s.toList = true := by
  intro limit v s h hv
  obtain ⟨rfl, haccepts⟩ := matching_eq_pass.1 h
  exact ⟨haccepts, hv⟩

theorem boolean_keeps : boolean.Keeps Value.boolean fun _ => True := by
  intro limit v b _ _
  exact ⟨trivial, .boolean b, Nat.zero_le _, .inr rfl⟩

theorem number_keeps : number.Keeps Value.number fun n => n.Fits false := by
  intro limit v n h hv
  cases number_eq_pass.1 h
  refine ⟨?_, hv⟩
  cases hv.1 with
  | number hn => exact hn.mono

/-- What holds of the data that a list of values gives. -/
theorem keeps_items (hshape : shape.Keeps write P) {values : List Value} {items : List α}
    (hvalues : (Value.array values).Fits (.within limit))
    (h : ∀ a ∈ items, ∃ w ∈ values, shape w = pass a) :
    (∀ a ∈ items, P a) ∧ (Value.array (items.map write)).Fits (.within limit) := by
  cases items with
  | nil => exact ⟨nofun, .array nofun, Nat.zero_le _, .inr rfl⟩
  | cons first more =>
    obtain ⟨w, hw, -⟩ := h first (List.mem_cons_self ..)
    obtain ⟨hpos, hfits⟩ := hvalues.forall_items (List.ne_nil_of_mem hw)
    have hkeeps : ∀ a ∈ first :: more, P a ∧ (write a).Fits (.within (limit - 1)) := fun a ha => by
      obtain ⟨w, hw, hpass⟩ := h a ha
      exact hshape hpass (hfits w hw)
    exact ⟨fun a ha => (hkeeps a ha).1,
      .array hpos (List.forall_mem_map.2 fun a ha => (hkeeps a ha).2)⟩

theorem array_keeps (hshape : shape.Keeps write P) :
    (array shape).Keeps (fun items => .array (items.map write)) fun items => ∀ a ∈ items, P a := by
  intro limit v items h hv
  obtain ⟨values, rfl, hmem⟩ := mem_of_array h
  exact keeps_items hshape hv hmem

theorem filledArray_keeps (hshape : shape.Keeps write P) :
    (filledArray shape).Keeps (fun items => .array (items.map write))
      fun items => items ≠ [] ∧ ∀ a ∈ items, P a := by
  intro limit v items h hv
  obtain ⟨hne, harray⟩ := array_of_filledArray h
  obtain ⟨hitems, hfits⟩ := array_keeps hshape harray hv
  exact ⟨⟨hne, hitems⟩, hfits⟩

theorem required_keeps (hshape : shape.Keeps write P)
    (hmembers : ∀ m ∈ members, m.2.Fits (.within limit))
    {a : α} (h : required members name shape = pass a) : P a ∧ (write a).Fits (.within limit) := by
  obtain ⟨v, hlookup, hpass⟩ := required_eq_pass.1 h
  exact hshape hpass (fits_of_lookup hmembers hlookup)

theorem optional_keeps (hshape : shape.Keeps write P)
    (hmembers : ∀ m ∈ members, m.2.Fits (.within limit))
    {o : Option α} (h : Shape.optional members name shape = pass o) :
    ∀ a, o = some a → P a ∧ (write a).Fits (.within limit) := by
  rintro a rfl
  obtain ⟨v, hlookup, -, hpass⟩ := optional_eq_some.1 h
  exact hshape hpass (fits_of_lookup hmembers hlookup)

theorem group_keeps (hshape : shape.Keeps write P)
    (hmembers : ∀ m ∈ members, m.2.Fits (.within limit))
    {items : List α} (h : Shape.group members name shape = pass items) :
    (∀ a ∈ items, P a) ∧ (items ≠ [] → (Value.array (items.map write)).Fits (.within limit)) := by
  rcases mem_of_group h with rfl | ⟨values, hlookup, hmem⟩
  · exact ⟨nofun, fun hne => absurd rfl hne⟩
  · obtain ⟨hitems, hfits⟩ := keeps_items hshape (fits_of_lookup hmembers hlookup) hmem
    exact ⟨hitems, fun _ => hfits⟩

theorem ne_nil_of_required {a : α} (h : required members name shape = pass a) : members ≠ [] := by
  obtain ⟨v, hlookup, -⟩ := required_eq_pass.1 h
  exact ne_nil_of_lookup hlookup

theorem map_keeps {β : Type} {f : α → β} {write' : β → Value} {Q : β → Prop}
    (hshape : shape.Keeps write P) (hf : ∀ a, write' (f a) = write a ∧ (P a → Q (f a))) :
    Shape.Keeps (fun v => f <$> shape v) write' Q := by
  intro limit v b h hv
  obtain ⟨a, ha, rfl⟩ := map_eq_pass.1 h
  obtain ⟨hP, hfits⟩ := hshape ha hv
  rw [(hf a).1]
  exact ⟨(hf a).2 hP, hfits⟩

/-- Variants keep what each of them keeps of an object that has members: there is one at least,
which names the variant. -/
theorem variants_keeps {list : List (String × Shape α)}
    (h : ∀ variant ∈ list, ∀ ⦃limit : Nat⦄ ⦃members : Members⦄ ⦃a : α⦄,
      variant.2 (.object members) = pass a → members ≠ [] →
      (Value.object members).Fits (.within limit) → P a ∧ (write a).Fits (.within limit)) :
    (variants list).Keeps write P := by
  intro limit v a hv hfits
  obtain ⟨members, name, shape, rfl, htype, hshape, hread⟩ := variants_eq_pass.1 hv
  exact h _ (Dictionary.mem_of_get? hshape) hread (ne_nil_of_lookup htype) hfits

end Shape

end Json

open Json (ne_nil_of_lookup fits_of_lookup)

/-! ## Metadata, times and arguments -/

theorem Metadata.keeps {limit : Nat} {m : Metadata} (h : (Value.object m).Fits (.within limit)) :
    m.Valid ∧ m.toJson.Fits (.within limit) := by
  obtain ⟨hsound, hdepth⟩ := h.1.nullNonFinite
  refine ⟨h.1.mono fun _ hn => hn.mono, hsound.mono fun _ hn => hn.1, ?_,
    .inr (h.1.isEncodable_nullNonFinite.2 h.isEncodable)⟩
  unfold Metadata.toJson
  rw [hdepth]
  exact h.2.1

theorem Metadata.valid_nil : Metadata.Valid [] :=
  .object Dictionary.distinct_nil nofun

theorem Metadata.ofMembers_keeps {limit : Nat} {members : Members} {m : Metadata}
    (hmembers : ∀ x ∈ members, x.2.Fits (.within limit)) (h : Metadata.ofMembers members = pass m) :
    m.Valid ∧ (m ≠ [] → m.toJson.Fits (.within limit)) := by
  obtain ⟨found, hfound, h⟩ := refine_eq_pass.1 h
  cases pass_inj.1 h
  cases found with
  | none => exact ⟨valid_nil, fun hne => absurd rfl hne⟩
  | some m =>
    obtain ⟨v, hlookup, -, hshape⟩ := optional_eq_some.1 hfound
    obtain ⟨m', hm', h⟩ := refine_eq_pass.1 hshape
    have hv : v = .object m := by
      cases v with
      | object members =>
        cases pass_inj.1 hm'
        split at h
        · cases h
        · cases pass_inj.1 h; rfl
      | _ => cases hm'
    subst hv
    obtain ⟨hvalid, hfits⟩ := keeps (fits_of_lookup hmembers hlookup)
    exact ⟨hvalid, fun _ => hfits⟩

theorem Time.toJson_keeps {limit : Nat} {t : Time}
    (htag : ∀ tag, t.tag? = some tag → tag ≠ "" ∧ tag.isEncodable = true)
    (hpos : 0 < limit) : t.Valid ∧ t.toJson.Fits (.within limit) := by
  refine ⟨fun h => (htag "" h).1 rfl, .record t.keys (by decide) hpos ?_⟩
  have hkind : t.kind.isEncodable = true := by cases t <;> rfl
  simp only [List.forall_mem_append, forall_mem_field, forall_mem_optional]
  exact ⟨Value.fits_string hkind, fun tag h => Value.fits_string (htag tag h).2⟩

theorem Time.shape_keeps : Time.shape.Keeps Time.toJson Time.Valid := by
  have htagged {limit : Nat} {members : Members} {t : Time} {build : Option String → Time}
      (hbuild : ∀ tag, (build tag).tag? = tag)
      (h : Time.taggedShape build (.object members) = pass t) (hne : members ≠ [])
      (hv : (Value.object members).Fits (.within limit)) :
      t.Valid ∧ t.toJson.Fits (.within limit) := by
    obtain ⟨_, heq, h, -⟩ := record_eq_pass.1 h
    cases heq
    obtain ⟨tag, htag, rfl⟩ := map_eq_pass.1 h
    obtain ⟨hpos, hmembers⟩ := hv.forall_members hne
    refine toJson_keeps (fun s hs => ?_) hpos
    rw [hbuild] at hs
    exact (optional_keeps nonEmptyString_keeps hmembers htag s hs).1
  refine variants_keeps ?_
  simp only [List.forall_mem_cons]
  refine ⟨fun _ _ _ => htagged fun _ => rfl, fun limit members t h hne hv => ?_,
    fun _ _ _ => htagged fun _ => rfl, fun _ _ _ => htagged fun _ => rfl, List.forall_mem_nil _⟩
  obtain ⟨_, -, h, -⟩ := record_eq_pass.1 h
  cases pass_inj.1 h
  exact toJson_keeps nofun (hv.forall_members hne).1

theorem BaseArgument.ofValue_keeps {α : Type} {build : α → Option String → BaseArgument}
    {shape : Shape α} {write : α → Value} {P : α → Prop} (hshape : shape.Keeps write P)
    (hbuild : ∀ x name, (build x name).value = write x ∧ (build x name).name? = name ∧
      (P x → (build x name).Valid)) :
    (BaseArgument.ofValue build shape).Keeps BaseArgument.toJson BaseArgument.Valid := by
  intro limit v a h hv
  obtain ⟨members, rfl, h, -⟩ := record_eq_pass.1 h
  obtain ⟨_, name, hf, hname, rfl⟩ := seq_eq_pass.1 h
  obtain ⟨x, hx, rfl⟩ := map_eq_pass.1 hf
  obtain ⟨hpos, hmembers⟩ := hv.forall_members (ne_nil_of_required hx)
  obtain ⟨hP, hfits⟩ := required_keeps hshape hmembers hx
  obtain ⟨hvalue, hcalled, hvalid⟩ := hbuild x name
  have hnames := optional_keeps string_keeps hmembers hname
  refine ⟨hvalid hP, .record (build x name).keys (by decide) hpos ?_⟩
  have hkind : (build x name).kind.isEncodable = true := by cases build x name <;> rfl
  simp only [List.forall_mem_append, forall_mem_field, forall_mem_optional, hvalue, hcalled]
  exact ⟨⟨Value.fits_string hkind, hfits⟩, fun s hs => (hnames s hs).2⟩

theorem BaseArgument.finiteNumber_keeps :
    finiteNumber.Keeps Value.number fun n => n.isFinite = true ∧ n.Fits false := by
  intro limit v n h hv
  obtain ⟨m, hm, h⟩ := refine_eq_pass.1 h
  split at h
  · next hfinite =>
    cases pass_inj.1 h
    obtain ⟨hshort, hfits⟩ := number_keeps hm hv
    exact ⟨⟨hfinite, hshort⟩, hfits⟩
  · exact absurd h fail_ne_pass

theorem BaseArgument.symbolWord_keeps : symbolWord.Keeps Value.string fun s =>
    isIdentifier s.toList = true ∧ truthWords.contains s = false := by
  intro limit v s h hv
  obtain ⟨word, hword, h⟩ := refine_eq_pass.1 h
  split at h
  · exact absurd h fail_ne_pass
  · next htruth =>
    cases pass_inj.1 h
    obtain ⟨hidentifier, hfits⟩ := matching_keeps hword hv
    exact ⟨⟨hidentifier, by simpa using htruth⟩, hfits⟩

/-- Every listed kind of single argument gives valid arguments. -/
theorem BaseArgument.shapes_keep :
    ∀ variant ∈ BaseArgument.shapes, variant.2.Keeps BaseArgument.toJson BaseArgument.Valid := by
  simp only [BaseArgument.shapes, List.forall_mem_cons]
  exact ⟨ofValue_keeps string_keeps fun _ _ => ⟨rfl, rfl, id⟩,
    ofValue_keeps finiteNumber_keeps fun _ _ => ⟨rfl, rfl, id⟩,
    ofValue_keeps boolean_keeps fun _ _ => ⟨rfl, rfl, fun _ => trivial⟩,
    ofValue_keeps symbolWord_keeps fun _ _ => ⟨rfl, rfl, id⟩,
    ofValue_keeps matching_keeps fun _ _ => ⟨rfl, rfl, id⟩, List.forall_mem_nil _⟩

theorem BaseArgument.shape_keeps :
    BaseArgument.shape.Keeps BaseArgument.toJson BaseArgument.Valid :=
  variants_keeps fun variant hvariant _ _ _ h _ hv => shapes_keep variant hvariant h hv

theorem Argument.repetitionShape_keeps :
    repetitionShape.Keeps Argument.toJson Argument.Valid := by
  intro limit v a h hv
  obtain ⟨members, rfl, h, -⟩ := record_eq_pass.1 h
  obtain ⟨_, name, hf, hname, rfl⟩ := seq_eq_pass.1 h
  obtain ⟨sets, hsets, rfl⟩ := map_eq_pass.1 hf
  obtain ⟨hpos, hmembers⟩ := hv.forall_members (ne_nil_of_required hsets)
  obtain ⟨hvalid, hfits⟩ :=
    required_keeps (array_keeps (array_keeps BaseArgument.shape_keeps)) hmembers hsets
  have hnames := optional_keeps string_keeps hmembers hname
  refine ⟨hvalid, .record (Argument.keys sets name) (by decide) hpos ?_⟩
  simp only [List.forall_mem_append, forall_mem_field, forall_mem_optional]
  exact ⟨⟨Value.fits_string rfl, hfits⟩, fun s hs => (hnames s hs).2⟩

theorem Argument.shape_keeps : Argument.shape.Keeps Argument.toJson Argument.Valid := by
  refine variants_keeps ?_
  simp only [List.forall_mem_append, List.forall_mem_map, List.forall_mem_singleton]
  refine ⟨fun variant hvariant _ _ _ h _ hv => ?_,
    fun _ _ _ h _ hv => repetitionShape_keeps h hv⟩
  have hbase : Shape.Keeps (fun v => Argument.base <$> variant.2 v) Argument.toJson
      Argument.Valid :=
    map_keeps (BaseArgument.shapes_keep variant hvariant) fun _ => ⟨rfl, id⟩
  exact hbase h hv

/-- Arguments that are written whether there are some or not. -/
theorem Argument.ofMembers_keeps {limit : Nat} {members : Members} {arguments : List Argument}
    (hmembers : ∀ m ∈ members, m.2.Fits (.within limit))
    (h : Argument.ofMembers members = pass arguments) :
    (∀ a ∈ arguments, a.Valid) ∧
    (Value.array (arguments.map Argument.toJson)).Fits (.within limit) := by
  rcases withDefault_eq_pass.1 h with ⟨-, rfl⟩ | ⟨v, hlookup, hpass⟩
  · exact ⟨List.forall_mem_nil _, .array (List.forall_mem_nil _), Nat.zero_le _, .inr rfl⟩
  · exact array_keeps Argument.shape_keeps hpass (fits_of_lookup hmembers hlookup)

/-! ## Steps -/

theorem ModelValue.shape_keeps : ModelValue.shape.Keeps ModelValue.toJson ModelValue.Valid := by
  intro limit v m h hv
  cases v with
  | boolean b => cases pass_inj.1 h; exact ⟨trivial, hv⟩
  | string s => cases pass_inj.1 h; exact ⟨trivial, hv⟩
  | number n =>
    have hm : (pass (ModelValue.number n) : Checked ModelValue) = pass m := h
    obtain rfl := pass_inj.1 hm
    cases hv.1 with
    | number hn => exact ⟨hn.mono, hv⟩
  | null | array | object => cases h

theorem Model.shape_keeps : Model.shape.Keeps Model.toJson fun m => m.value.Valid := by
  intro limit v m h hv
  obtain ⟨members, rfl, h, -⟩ := record_eq_pass.1 h
  obtain ⟨_, offset, hf, hoffset, rfl⟩ := seq_eq_pass.1 h
  obtain ⟨_, value, hg, hvalue, rfl⟩ := seq_eq_pass.1 hf
  obtain ⟨name, hname, rfl⟩ := map_eq_pass.1 hg
  obtain ⟨hpos, hmembers⟩ := hv.forall_members (ne_nil_of_required hname)
  obtain ⟨hvalid, hfits⟩ := required_keeps ModelValue.shape_keeps hmembers hvalue
  refine ⟨hvalid, .record (Model.keys ⟨name, value, offset⟩) (by decide) hpos ?_⟩
  simp only [List.forall_mem_append, forall_mem_field]
  exact ⟨⟨(required_keeps string_keeps hmembers hname).2, hfits⟩,
    (required_keeps string_keeps hmembers hoffset).2⟩

/-- An integer in its canonical spelling is no longer than it is allowed to be, sign and all. -/
theorem LenientText.fits_of_canonicalInt? {text : List Char} {n : Int} {short : Bool}
    (h : canonicalInt? text = some n) : (Number.int n).Fits short := by
  obtain ⟨sign, digits, hparts⟩ : ∃ sign digits, cutMinus text = (sign, digits) := ⟨_, _, rfl⟩
  simp only [canonicalInt?, beginsOversized, hparts] at h
  split at h
  · cases h
    exact Number.fits_of_lt Nat.one_pos (by decide) (by decide) fun _ _ => by decide
  split at h
  · cases h
  next hgood =>
  simp only [Bool.or_eq_true, not_or, Bool.not_eq_true', Bool.not_eq_false, Bool.and_eq_true,
    not_and, decide_eq_true_eq] at hgood
  obtain ⟨⟨⟨-, hhead⟩, hall⟩, hlong⟩ := hgood
  have hrun : digits.takeWhile Character.isAsciiDigit = digits := by
    have htake : (digits ++ []).takeWhile Character.isAsciiDigit = digits :=
      takeWhile_run (List.all_eq_true.1 hall) nofun
    rwa [List.append_nil] at htake
  rw [hrun] at hlong
  have hlength := hlong (by simpa using hhead)
  split at h
  · next hsign => cases h; exact Number.fits_of_value rfl (by omega) (by omega)
  · next hsign =>
    cases h
    have hpos : 0 < sign.length := List.length_pos_iff.2 (by simpa using hsign)
    exact Number.fits_of_value (Int.natAbs_neg _) (by omega) (by omega)

theorem integralBound_lt : integralBound < tenPow 19 := by
  decide

/-- An integer that is given in whatever way is short enough to be written, if it is given as an
integer then because it was read. -/
theorem Json.Shape.lenientInt_keeps : lenientInt.Keeps (fun n : Int => Value.number (.int n))
    fun n => (Number.int n).Fits false := by
  intro limit v n h hv
  have hfits (h : ∀ short, (Number.int n).Fits short) :
      (Number.int n).Fits false ∧ (Value.number (.int n)).Fits (.within limit) :=
    ⟨h _, .number (h _), Nat.zero_le _, .inr rfl⟩
  have hlimit : 19 < Decimal.digitLimit := by decide
  unfold lenientInt at h
  split at h
  · cases pass_inj.1 h
    cases hv.1 with
    | number hn => exact ⟨hn.mono, hv⟩
  · next b =>
    cases pass_inj.1 h
    refine hfits fun _ => Number.fits_of_lt Nat.one_pos ?_ (by decide) fun _ _ => by decide
    cases b <;> decide
  · split at h
    · exact absurd h fail_ne_pass
    · split at h
      · exact absurd h fail_ne_pass
      · split at h
        · next hbound =>
          cases pass_inj.1 h
          exact hfits fun _ => Number.fits_of_lt (by decide) (Nat.lt_trans hbound integralBound_lt)
            (Nat.le_of_lt hlimit) fun _ _ => hlimit
        · exact absurd h fail_ne_pass
  · split at h
    · next hread =>
      cases pass_inj.1 h
      unfold LenientText.readInt at hread
      split at hread
      · cases hread
      · split at hread
        · next hn =>
          cases hread
          refine hfits fun short => ?_
          rw [Option.orElse_eq_orElse, Option.orElse_eq_or, Option.or_eq_some_iff] at hn
          rcases hn with hn | ⟨-, hn⟩
          · exact LenientText.fits_of_canonicalInt? hn
          · obtain ⟨clean, -, hn⟩ := Option.bind_eq_some_iff.1 hn
            exact LenientText.fits_of_canonicalInt? hn
        · cases hread
    · exact absurd h fail_ne_pass
  · exact absurd h fail_ne_pass

/-- A step is valid, and is written within whatever limits its object keeps, if what it does is. -/
theorem Step.record_keeps {known : List String}
    {does : Members → Checked (Action × List Argument)}
    (hdoes : ∀ ⦃limit : Nat⦄ ⦃members : Members⦄ ⦃action : Action⦄ ⦃arguments : List Argument⦄,
      does members = pass (action, arguments) → (∀ m ∈ members, m.2.Fits (.within limit)) →
      action.Valid ∧ (∀ a ∈ arguments, a.Valid) ∧
      ∀ m ∈ action.toJson arguments, m.2.Fits (.within limit)) :
    (record known fun members => Step.ofMembers members (does members)).Keeps
      Step.toJson Step.Valid := by
  intro limit v s h hv
  obtain ⟨members, rfl, h, -⟩ := record_eq_pass.1 h
  obtain ⟨_, ⟨action, arguments⟩, hf, haction, rfl⟩ := seq_eq_pass.1 h
  obtain ⟨_, models, hg, hmodels, rfl⟩ := seq_eq_pass.1 hf
  obtain ⟨_, metadata, hk, hmetadata, rfl⟩ := seq_eq_pass.1 hg
  obtain ⟨_, description, hl, hdescription, rfl⟩ := seq_eq_pass.1 hk
  obtain ⟨time, htime, rfl⟩ := map_eq_pass.1 hl
  obtain ⟨hpos, hmembers⟩ := hv.forall_members (ne_nil_of_required htime)
  obtain ⟨hactionValid, hargumentsValid, hactionFits⟩ := hdoes haction hmembers
  obtain ⟨htimeValid, htimeFits⟩ := required_keeps Time.shape_keeps hmembers htime
  obtain ⟨hmetadataValid, hmetadataFits⟩ := Metadata.ofMembers_keeps hmembers hmetadata
  obtain ⟨hmodelsValid, hmodelsFits⟩ := group_keeps Model.shape_keeps hmembers hmodels
  refine ⟨⟨htimeValid, hactionValid, hargumentsValid, hmetadataValid, hmodelsValid⟩, ?_⟩
  refine .record (Step.keys ⟨time, action, arguments, description, metadata, models⟩)
    ⟨Step.names_nodup action, Step.names_encodable action⟩ hpos
      (List.forall_mem_append.2 ⟨?_, hactionFits⟩)
  simp only [List.forall_mem_append, forall_mem_field, forall_mem_optional, forall_mem_metadata,
    forall_mem_group]
  exact ⟨⟨⟨htimeFits, fun s hs => (optional_keeps string_keeps hmembers hdescription s hs).2⟩,
    hmetadataFits⟩, hmodelsFits⟩

theorem Step.commandShape_keeps : Step.commandShape.Keeps Step.toJson Step.Valid := by
  refine record_keeps fun limit members action arguments h hmembers => ?_
  obtain ⟨_, _, hf, harguments, heq⟩ := seq_eq_pass.1 h
  obtain ⟨stem, hstem, rfl⟩ := map_eq_pass.1 hf
  cases heq
  obtain ⟨hvalid, hfits⟩ := Argument.ofMembers_keeps hmembers harguments
  obtain ⟨hidentifier, hstemFits⟩ := required_keeps matching_keeps hmembers hstem
  refine ⟨hidentifier, hvalid, ?_⟩
  simp only [Action.toJson, List.forall_mem_append, forall_mem_field]
  exact ⟨⟨Value.fits_string rfl, hstemFits⟩, hfits⟩

theorem Step.callShape_keeps (kind : CallKind) :
    (Step.callShape kind).Keeps Step.toJson Step.Valid := by
  refine record_keeps fun limit members action arguments h hmembers => ?_
  obtain ⟨_, epoch, hf, hepoch, heq⟩ := seq_eq_pass.1 h
  obtain ⟨_, engine, hg, hengine, rfl⟩ := seq_eq_pass.1 hf
  obtain ⟨_, _, hk, harguments, rfl⟩ := seq_eq_pass.1 hg
  obtain ⟨sequence, hsequence, rfl⟩ := map_eq_pass.1 hk
  cases heq
  obtain ⟨hvalid, hfits⟩ := group_keeps Argument.shape_keeps hmembers harguments
  have hinteger := optional_keeps lenientInt_keeps hmembers hengine
  refine ⟨fun n hn => (hinteger n hn).1, hvalid, ?_⟩
  simp only [Action.toJson, List.forall_mem_append, forall_mem_field, forall_mem_group,
    forall_mem_optional]
  have hkind : kind.name.isEncodable = true := by cases kind <;> rfl
  exact ⟨⟨⟨⟨Value.fits_string hkind, (required_keeps string_keeps hmembers hsequence).2⟩, hfits⟩,
    fun n hn => (hinteger n hn).2⟩,
      fun s hs => (optional_keeps string_keeps hmembers hepoch s hs).2⟩

theorem Step.groundShape_keeps (kind : GroundKind) :
    (Step.groundShape kind).Keeps Step.toJson Step.Valid := by
  refine record_keeps fun limit members action arguments h hmembers => ?_
  obtain ⟨_, _, hf, harguments, heq⟩ := seq_eq_pass.1 h
  obtain ⟨name, hname, rfl⟩ := map_eq_pass.1 hf
  cases heq
  obtain ⟨hvalid, hfits⟩ := group_keeps Argument.shape_keeps hmembers harguments
  have hkind : kind.name.isEncodable = true := by cases kind <;> rfl
  refine ⟨trivial, hvalid, ?_⟩
  simp only [Action.toJson, List.forall_mem_append, forall_mem_field, forall_mem_group]
  exact ⟨⟨Value.fits_string hkind, (required_keeps string_keeps hmembers hname).2⟩, hfits⟩

theorem Step.shape_keeps : Step.shape.Keeps Step.toJson Step.Valid := by
  refine variants_keeps ?_
  simp only [List.forall_mem_cons]
  exact ⟨fun _ _ _ h _ => commandShape_keeps h, fun _ _ _ h _ => callShape_keeps .activate h,
    fun _ _ _ h _ => callShape_keeps .load h, fun _ _ _ h _ => groundShape_keeps .block h,
    fun _ _ _ h _ => groundShape_keeps .event h, List.forall_mem_nil _⟩

/-! ## Requests and sections -/

theorem GroundEpoch.shape_keeps :
    GroundEpoch.shape.Keeps GroundEpoch.toJson GroundEpoch.Valid := by
  intro limit v g h hv
  obtain ⟨members, rfl, h, -⟩ := record_eq_pass.1 h
  obtain ⟨_, delta, hf, hdelta, rfl⟩ := seq_eq_pass.1 h
  obtain ⟨name, hname, rfl⟩ := map_eq_pass.1 hf
  cases members with
  | nil =>
    cases hname
    cases hdelta
    exact ⟨⟨nofun, nofun, nofun⟩, .object Dictionary.distinct_nil (List.forall_mem_nil _),
      Nat.zero_le _, .inr rfl⟩
  | cons member more =>
    obtain ⟨hpos, hmembers⟩ := hv.forall_members (List.cons_ne_nil member more)
    have hnames := optional_keeps nonEmptyString_keeps hmembers hname
    have hdeltas := optional_keeps nonEmptyString_keeps hmembers hdelta
    refine ⟨⟨fun h => (hnames "" h).1.1 rfl, fun s hs => (hnames s hs).1.2,
      fun h => (hdeltas "" h).1.1 rfl⟩,
      .record (GroundEpoch.keys ⟨name, delta⟩) (by decide) hpos ?_⟩
    simp only [List.forall_mem_append, forall_mem_optional]
    exact ⟨fun s hs => (hnames s hs).2, fun s hs => (hdeltas s hs).2⟩

theorem Request.shape_keeps : Request.shape.Keeps Request.toJson Request.Valid := by
  intro limit v r h hv
  obtain ⟨members, rfl, h, -⟩ := record_eq_pass.1 h
  obtain ⟨_, metadata, hf, hmetadata, rfl⟩ := seq_eq_pass.1 h
  obtain ⟨_, description, hg, hdescription, rfl⟩ := seq_eq_pass.1 hf
  obtain ⟨_, epoch, hk, hepoch, rfl⟩ := seq_eq_pass.1 hg
  obtain ⟨_, time, hl, htime, rfl⟩ := seq_eq_pass.1 hk
  obtain ⟨_, steps, hm, hsteps, rfl⟩ := seq_eq_pass.1 hl
  obtain ⟨_, name, hn, hname, rfl⟩ := seq_eq_pass.1 hm
  obtain ⟨_, -, rfl⟩ := map_eq_pass.1 hn
  obtain ⟨hpos, hmembers⟩ := hv.forall_members (ne_nil_of_required hname)
  obtain ⟨hmetadataValid, hmetadataFits⟩ := Metadata.ofMembers_keeps hmembers hmetadata
  obtain ⟨⟨hfilled, hstepsValid⟩, hstepsFits⟩ :=
    required_keeps (filledArray_keeps Step.shape_keeps) hmembers hsteps
  have htimes := optional_keeps Time.shape_keeps hmembers htime
  have hepochs := optional_keeps GroundEpoch.shape_keeps hmembers hepoch
  refine ⟨⟨hfilled, hstepsValid, fun t ht => (htimes t ht).1, fun g hg => (hepochs g hg).1,
    hmetadataValid⟩, ?_⟩
  refine .record (Request.keys ⟨name, steps, time, epoch, description, metadata⟩)
    (by decide) hpos ?_
  simp only [List.forall_mem_append, forall_mem_field, forall_mem_optional, forall_mem_metadata]
  exact ⟨⟨⟨⟨⟨⟨Value.fits_string rfl, (required_keeps string_keeps hmembers hname).2⟩, hstepsFits⟩,
    fun t ht => (htimes t ht).2⟩, fun g hg => (hepochs g hg).2⟩,
    fun s hs => (optional_keeps string_keeps hmembers hdescription s hs).2⟩, hmetadataFits⟩

theorem Json.Shape.sectionStem_keeps : sectionStem.Keeps Value.string IsSectionStem := by
  intro limit v s h hv
  obtain ⟨word, hword, h⟩ := refine_eq_pass.1 h
  split at h
  · exact absurd h fail_ne_pass
  · next htag =>
    cases pass_inj.1 h
    obtain ⟨hidentifier, hfits⟩ := matching_keeps hword hv
    exact ⟨⟨hidentifier, by simpa using htag⟩, hfits⟩

theorem ImmediateCommand.shape_keeps :
    ImmediateCommand.shape.Keeps ImmediateCommand.toJson ImmediateCommand.Valid := by
  intro limit v c h hv
  obtain ⟨members, rfl, h, -⟩ := record_eq_pass.1 h
  obtain ⟨_, metadata, hf, hmetadata, rfl⟩ := seq_eq_pass.1 h
  obtain ⟨_, description, hg, hdescription, rfl⟩ := seq_eq_pass.1 hf
  obtain ⟨_, arguments, hk, harguments, rfl⟩ := seq_eq_pass.1 hg
  obtain ⟨stem, hstem, rfl⟩ := map_eq_pass.1 hk
  obtain ⟨hpos, hmembers⟩ := hv.forall_members (ne_nil_of_required hstem)
  obtain ⟨hmetadataValid, hmetadataFits⟩ := Metadata.ofMembers_keeps hmembers hmetadata
  obtain ⟨hargumentsValid, hargumentsFits⟩ := Argument.ofMembers_keeps hmembers harguments
  obtain ⟨hstemValid, hstemFits⟩ := required_keeps sectionStem_keeps hmembers hstem
  refine ⟨⟨hstemValid, hargumentsValid, hmetadataValid⟩, ?_⟩
  refine .record (ImmediateCommand.keys ⟨stem, arguments, description, metadata⟩)
    (by decide) hpos ?_
  simp only [List.forall_mem_append, forall_mem_field, forall_mem_optional, forall_mem_metadata]
  exact ⟨⟨⟨hstemFits, hargumentsFits⟩,
    fun s hs => (optional_keeps string_keeps hmembers hdescription s hs).2⟩, hmetadataFits⟩

theorem HardwareCommand.shape_keeps :
    HardwareCommand.shape.Keeps HardwareCommand.toJson HardwareCommand.Valid := by
  intro limit v c h hv
  obtain ⟨members, rfl, h, -⟩ := record_eq_pass.1 h
  obtain ⟨_, metadata, hf, hmetadata, rfl⟩ := seq_eq_pass.1 h
  obtain ⟨_, description, hg, hdescription, rfl⟩ := seq_eq_pass.1 hf
  obtain ⟨stem, hstem, rfl⟩ := map_eq_pass.1 hg
  obtain ⟨hpos, hmembers⟩ := hv.forall_members (ne_nil_of_required hstem)
  obtain ⟨hmetadataValid, hmetadataFits⟩ := Metadata.ofMembers_keeps hmembers hmetadata
  obtain ⟨hstemValid, hstemFits⟩ := required_keeps sectionStem_keeps hmembers hstem
  refine ⟨⟨hstemValid, hmetadataValid⟩, ?_⟩
  refine .record (HardwareCommand.keys ⟨stem, description, metadata⟩) (by decide) hpos ?_
  simp only [List.forall_mem_append, forall_mem_field, forall_mem_optional, forall_mem_metadata]
  exact ⟨⟨hstemFits, fun s hs => (optional_keeps string_keeps hmembers hdescription s hs).2⟩,
    hmetadataFits⟩

/-! ## Declarations and documents -/

theorem Range.shape_keeps : Range.shape.Keeps Range.toJson Range.Valid := by
  intro limit v r h hv
  obtain ⟨members, rfl, h, -⟩ := record_eq_pass.1 h
  obtain ⟨_, max, hf, hmax, rfl⟩ := seq_eq_pass.1 h
  obtain ⟨min, hmin, rfl⟩ := map_eq_pass.1 hf
  obtain ⟨hpos, hmembers⟩ := hv.forall_members (ne_nil_of_required hmin)
  obtain ⟨hminValid, hminFits⟩ := required_keeps number_keeps hmembers hmin
  obtain ⟨hmaxValid, hmaxFits⟩ := required_keeps number_keeps hmembers hmax
  refine ⟨⟨hminValid, hmaxValid⟩, .record (Range.keys ⟨min, max⟩) (by decide) hpos ?_⟩
  simp only [List.forall_mem_append, forall_mem_field]
  exact ⟨hminFits, hmaxFits⟩

theorem AllowableValue.shape_keeps :
    AllowableValue.shape.Keeps AllowableValue.toJson AllowableValue.Valid := by
  intro limit v a h hv
  cases v with
  | string s => cases pass_inj.1 h; exact ⟨trivial, hv⟩
  | number n =>
    have ha : (pass (AllowableValue.number n) : Checked AllowableValue) = pass a := h
    obtain rfl := pass_inj.1 ha
    cases hv.1 with
    | number hn => exact ⟨hn.mono, hv⟩
  | null | boolean | array | object => cases h

theorem Declaration.shape_keeps :
    Declaration.shape.Keeps Declaration.toJson Declaration.Valid := by
  intro limit v p h hv
  obtain ⟨members, rfl, h, -⟩ := record_eq_pass.1 h
  obtain ⟨_, values, hf, hvalues, rfl⟩ := seq_eq_pass.1 h
  obtain ⟨_, ranges, hg, hranges, rfl⟩ := seq_eq_pass.1 hf
  obtain ⟨_, enumName, hk, henum, rfl⟩ := seq_eq_pass.1 hg
  obtain ⟨_, type, hl, -, rfl⟩ := seq_eq_pass.1 hk
  obtain ⟨name, hname, rfl⟩ := map_eq_pass.1 hl
  obtain ⟨hpos, hmembers⟩ := hv.forall_members (ne_nil_of_required hname)
  obtain ⟨hnameValid, hnameFits⟩ := required_keeps matching_keeps hmembers hname
  have henums := optional_keeps matching_keeps hmembers henum
  obtain ⟨hrangesValid, hrangesFits⟩ := group_keeps Range.shape_keeps hmembers hranges
  obtain ⟨hvaluesValid, hvaluesFits⟩ := group_keeps AllowableValue.shape_keeps hmembers hvalues
  refine ⟨⟨hnameValid, fun s hs => (henums s hs).1, hrangesValid, hvaluesValid⟩, ?_⟩
  refine .record (Declaration.keys ⟨name, type, enumName, ranges, values⟩) (by decide) hpos ?_
  simp only [List.forall_mem_append, forall_mem_field, forall_mem_optional, forall_mem_group]
  have hkeyword (t : VariableType) : t.keyword.isEncodable = true := by cases t <;> rfl
  exact ⟨⟨⟨⟨hnameFits, fun t _ => Value.fits_string (hkeyword t)⟩, fun s hs => (henums s hs).2⟩,
    hrangesFits⟩, hvaluesFits⟩

/-- A document read from a value is valid, and its object keeps the limits that the value keeps. -/
theorem Document.shape_keeps : Document.shape.Keeps Document.toJson Document.Valid := by
  intro limit v doc h hv
  obtain ⟨members, rfl, h, -⟩ := record_eq_pass.1 h
  obtain ⟨_, requests, h1, hrequests, rfl⟩ := seq_eq_pass.1 h
  obtain ⟨_, hardware, h2, hhardware, rfl⟩ := seq_eq_pass.1 h1
  obtain ⟨_, immediate, h3, himmediate, rfl⟩ := seq_eq_pass.1 h2
  obtain ⟨_, steps, h4, hsteps, rfl⟩ := seq_eq_pass.1 h3
  obtain ⟨_, locals, h5, hlocals, rfl⟩ := seq_eq_pass.1 h4
  obtain ⟨_, parameters, h6, hparameters, rfl⟩ := seq_eq_pass.1 h5
  obtain ⟨_, metadata, h7, hmetadata, rfl⟩ := seq_eq_pass.1 h6
  obtain ⟨id, hid, rfl⟩ := map_eq_pass.1 h7
  obtain ⟨hpos, hmembers⟩ := hv.forall_members (ne_nil_of_required hid)
  obtain ⟨hparametersValid, hparametersFits⟩ :=
    group_keeps Declaration.shape_keeps hmembers hparameters
  obtain ⟨hlocalsValid, hlocalsFits⟩ := group_keeps Declaration.shape_keeps hmembers hlocals
  obtain ⟨hstepsValid, hstepsFits⟩ := group_keeps Step.shape_keeps hmembers hsteps
  obtain ⟨himmediateValid, himmediateFits⟩ :=
    group_keeps ImmediateCommand.shape_keeps hmembers himmediate
  obtain ⟨hhardwareValid, hhardwareFits⟩ :=
    group_keeps HardwareCommand.shape_keeps hmembers hhardware
  obtain ⟨hrequestsValid, hrequestsFits⟩ := group_keeps Request.shape_keeps hmembers hrequests
  have hmetadataKeeps : metadata.Valid ∧ metadata.toJson.Fits (.within (limit - 1)) := by
    rcases withDefault_eq_pass.1 hmetadata with ⟨-, rfl⟩ | ⟨v, hlookup, hpass⟩
    · exact ⟨Metadata.valid_nil, .object Dictionary.distinct_nil (List.forall_mem_nil _),
        Nat.zero_le _, .inr rfl⟩
    · cases v with
      | object entries =>
        obtain rfl := pass_inj.1 hpass
        exact Metadata.keeps (fits_of_lookup hmembers hlookup)
      | null | boolean | number | string | array => cases hpass
  refine ⟨⟨hmetadataKeeps.1, hparametersValid, hlocalsValid, hstepsValid, himmediateValid,
    hhardwareValid, hrequestsValid⟩, ?_⟩
  refine .record (Document.keys ⟨id, metadata, parameters, locals, steps, immediate, hardware,
    requests⟩) (by decide) hpos ?_
  simp only [List.forall_mem_append, forall_mem_field, forall_mem_group]
  exact ⟨⟨⟨⟨⟨⟨⟨(required_keeps string_keeps hmembers hid).2, hmetadataKeeps.2⟩, hparametersFits⟩,
    hlocalsFits⟩, hstepsFits⟩, himmediateFits⟩, hhardwareFits⟩, hrequestsFits⟩

theorem Document.ofJson_eq_ok {v : Value} {d : Document} :
    Document.ofJson v = .ok d ↔ Document.shape v = pass d := by
  unfold Document.ofJson
  split
  · next found heq =>
    rw [heq]
    exact ⟨fun h => by cases h; rfl, fun h => by cases h; rfl⟩
  · next issues heq =>
    rw [heq]
    exact ⟨nofun, nofun⟩

theorem Document.ofJsonText_eq_ok {text : List Char} {d : Document} :
    Document.ofJsonText text = .ok d ↔ (String.ofList text).isEncodable = true ∧
      ∃ v, Json.read .document text = .ok v ∧ Document.shape v = pass d := by
  unfold Document.ofJsonText
  split
  · next hencodable =>
    split
    · next v heq => simp [Document.ofJson_eq_ok, heq, hencodable]
    · next heq => simp [heq]
  · next hnot => simp [hnot]

/-- A document read from JSON text is valid, and its object keeps the reader's limits. -/
theorem Document.keeps_of_ofJsonText {text : List Char} {d : Document}
    (h : Document.ofJsonText text = .ok d) : d.Valid ∧ d.toJson.Fits .document := by
  obtain ⟨-, v, hread, hshape⟩ := Document.ofJsonText_eq_ok.1 h
  exact Document.shape_keeps hshape (Json.fits_of_read hread)

end CommandSequence
