import CommandSequence.Proofs.Document.Kept
import CommandSequence.Proofs.Document.OfJson

/-!
# Documents through JSON and back

The JSON text of a valid document is read as what is dumped of the document, with null for the
numbers of its metadata that are not finite, exactly if that keeps the limits of the reader
(`Document.ofJsonText_toJsonText`). A document that keeps the limits is dumped as it is.
-/

namespace CommandSequence

open Json (Value)

/-- Where there is no number that is not finite, null replaces none. -/
theorem Metadata.norm_norm {m : Metadata} (h : m.Valid) : m.norm.norm = m.norm := by
  have hfinite := h.nullNonFinite.1
  exact Value.object.inj hfinite.nullNonFinite_eq

theorem Metadata.toJson_norm {m : Metadata} (h : m.Valid) : m.norm.toJson = m.toJson :=
  congrArg Value.object (Metadata.norm_norm h)

theorem Metadata.field_norm {m : Metadata} (h : m.Valid) : m.norm.field = m.field := by
  unfold Metadata.field
  rw [Metadata.toJson_norm h]
  cases m <;> rfl

theorem Step.toJson_norm {s : Step} (h : s.Valid) :
    (s.mapMetadata Metadata.norm).toJson = s.toJson := by
  simp only [toJson, mapMetadata, Metadata.field_norm h.metadata]

theorem Request.toJson_norm {r : Request} (h : r.Valid) :
    (r.mapMetadata Metadata.norm).toJson = r.toJson := by
  have hsteps : (r.steps.map (Step.mapMetadata Metadata.norm)).map Step.toJson =
      r.steps.map Step.toJson := by
    rw [List.map_map]
    exact List.map_congr_left fun s hs => Step.toJson_norm (h.steps s hs)
  simp only [toJson, mapMetadata, Metadata.field_norm h.metadata, hsteps]

theorem ImmediateCommand.toJson_norm {c : ImmediateCommand} (h : c.Valid) :
    (c.mapMetadata Metadata.norm).toJson = c.toJson := by
  simp only [toJson, mapMetadata, Metadata.field_norm h.metadata]

theorem HardwareCommand.toJson_norm {c : HardwareCommand} (h : c.Valid) :
    (c.mapMetadata Metadata.norm).toJson = c.toJson := by
  simp only [toJson, mapMetadata, Metadata.field_norm h.metadata]

/-- A group is written alike if its members are. -/
theorem ToJson.group_map {α : Type} {name : String} {write : α → Value} {f : α → α}
    {items : List α} (h : ∀ a ∈ items, write (f a) = write a) :
    group name write (items.map f) = group name write items := by
  cases items with
  | nil => rfl
  | cons a items =>
    have hmap : ((a :: items).map f).map write = (a :: items).map write := by
      rw [List.map_map]
      exact List.map_congr_left h
    exact congrArg (fun values => [(name, Value.array values)]) hmap

/-- Null for the numbers that are not finite changes no object that is written. -/
theorem Document.toJson_norm {d : Document} (h : d.Valid) : d.norm.toJson = d.toJson := by
  simp only [toJson, norm, mapMetadata, Metadata.toJson_norm h.metadata,
    ToJson.group_map fun s hs => Step.toJson_norm (h.steps s hs),
    ToJson.group_map fun c hc => ImmediateCommand.toJson_norm (h.immediateCommands c hc),
    ToJson.group_map fun c hc => HardwareCommand.toJson_norm (h.hardwareCommands c hc),
    ToJson.group_map fun r hr => Request.toJson_norm (h.requests r hr)]

theorem Metadata.Valid.norm {m : Metadata} (h : m.Valid) : m.norm.Valid :=
  h.nullNonFinite.1.mono fun _ hn => hn.1

namespace Document

variable {d d' : Document} {indent : Json.Indent}

theorem Valid.norm (h : d.Valid) : d.norm.Valid :=
  h.mapMetadata fun _ => Metadata.Valid.norm

/-- The JSON text of a valid document is read back exactly if what is dumped of the document keeps
the reader's limits, and then as what is dumped. -/
theorem ofJsonText_toJsonText (h : d.Valid) : ofJsonText (d.toJsonText indent) = .ok d' ↔
    d.dumped.toJson.Fits .document ∧ d' = d.dumped.norm := by
  have hread (v : Value) : Json.read .document (d.toJsonText indent) = .ok v ↔
      d.dumped.toJson.Fits .document ∧ v = d.dumped.toJson :=
    Json.read_write_iff h.dumped.sound_toJson
  rw [ofJsonText_eq_ok]
  constructor
  · rintro ⟨-, v, hv, hshape⟩
    obtain ⟨hfits, rfl⟩ := (hread v).1 hv
    exact ⟨hfits, Json.Checked.pass_inj.1 (hshape.symm.trans (shape_toJson h.dumped))⟩
  · rintro ⟨hfits, rfl⟩
    have hencodable : (String.ofList (d.toJsonText indent)).isEncodable = true :=
      Lines.kept_iff_isEncodable.1 ((kept_toJsonText h).2 hfits.isEncodable)
    exact ⟨hencodable, _, (hread _).2 ⟨hfits, rfl⟩, shape_toJson h.dumped⟩

/-- A document that keeps the reader's limits is read back from its JSON text. -/
theorem ofJsonText_toJsonText_of_fits (h : d.Valid) (hfits : d.toJson.Fits .document) :
    ofJsonText (d.toJsonText indent) = .ok d.norm := by
  have hdumped := dumped_eq h hfits.isEncodable
  rw [ofJsonText_toJsonText h, hdumped]
  exact ⟨hfits, rfl⟩

/-- A line feed after the JSON text makes no difference. -/
theorem ofJsonText_toJsonText_newline (h : d.Valid) (hfits : d.toJson.Fits .document) :
    ofJsonText (d.toJsonText indent ++ [('\n' : Char)]) = .ok d.norm := by
  have hdumped := dumped_eq h hfits.isEncodable
  have hread : Json.read .document (d.toJsonText indent ++ [('\n' : Char)]) = .ok d.toJson := by
    rw [toJsonText, hdumped]
    exact Json.read_write_append hfits.1 hfits.2.1 hfits.2.2 (List.forall_mem_singleton.2 rfl)
      (endsNumber_cons (by decide) (by decide) (by decide))
  have hencodable :
      (String.ofList (d.toJsonText indent ++ [('\n' : Char)])).isEncodable = true := by
    rw [← Lines.kept_iff_isEncodable, Lines.kept_append, kept_toJsonText h, hdumped]
    exact ⟨hfits.isEncodable, by decide⟩
  exact ofJsonText_eq_ok.2 ⟨hencodable, _, hread, shape_toJson h⟩

end Document

end CommandSequence
