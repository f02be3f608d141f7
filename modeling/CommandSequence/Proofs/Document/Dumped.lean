import CommandSequence.Proofs.Document.ToJson

/-!
# Documents as they are dumped

Before a document is written as JSON, halves of surrogate pairs are replaced in the keys of its
metadata. A valid document stays valid (`Document.Valid.dumped`), and one that UTF-8 has bytes for
stays as it is (`Document.dumped_eq`).
-/

namespace CommandSequence

open Json (Value)
open Json.Value (membersEncodable_append membersEncodable_field membersEncodable_optional
  membersEncodable_group isEncodable_map isEncodable_object entries_encodable)

/-- A map that leaves every member alone leaves the list alone. -/
theorem map_eq_self {α : Type} {f : α → α} {l : List α} (h : ∀ a ∈ l, f a = a) : l.map f = l :=
  (List.map_congr_left h).trans (List.map_id' l)

/-! ## Keys -/

theorem Metadata.dumpedKey_eq {key : String} (h : key.isEncodable = true) :
    dumpedKey key = key := by
  have hsame : key.toList.flatMap (fun c =>
      if c.isScalar then [c] else [('\uFFFD' : Char), '\uFFFD', '\uFFFD']) = key.toList := by
    rw [List.flatMap_congr fun c hc => if_pos (List.all_eq_true.1 h c hc)]
    exact List.flatMap_singleton' key.toList
  rw [dumpedKey, hsame]

theorem Metadata.Valid.dumped {m : Metadata} (h : m.Valid) : m.dumped.Valid := by
  refine .object (Dictionary.distinct_ofList _) fun written hwritten => ?_
  obtain ⟨entry, hentry, rfl⟩ := List.mem_map.1 (Dictionary.mem_ofList hwritten)
  exact h.sound entry hentry

theorem Metadata.dumped_eq {m : Metadata} (hvalid : m.Valid)
    (h : ∀ entry ∈ m, entry.1.isEncodable = true ∧ entry.2.isEncodable = true) : m.dumped = m := by
  have hsame : m.map (fun entry => (dumpedKey entry.1, entry.2)) = m :=
    map_eq_self fun entry hentry => Prod.ext (dumpedKey_eq (h entry hentry).1) rfl
  cases hvalid with
  | object hdistinct _ =>
    exact (congrArg Dictionary.ofList hsame).trans (Dictionary.ofList_of_distinct hdistinct)

/-! ## Valid documents -/

section

variable {f : Metadata → Metadata} (hf : ∀ m : Metadata, m.Valid → (f m).Valid)
include hf

theorem Step.Valid.mapMetadata {s : Step} (h : s.Valid) : (s.mapMetadata f).Valid :=
  { h with metadata := hf _ h.metadata }

theorem Request.Valid.mapMetadata {r : Request} (h : r.Valid) : (r.mapMetadata f).Valid :=
  { h with
    filled := fun hnil => h.filled (List.map_eq_nil_iff.1 hnil)
    steps := List.forall_mem_map.2 fun s hs => (h.steps s hs).mapMetadata hf
    metadata := hf _ h.metadata }

theorem ImmediateCommand.Valid.mapMetadata {c : ImmediateCommand} (h : c.Valid) :
    (c.mapMetadata f).Valid :=
  { h with metadata := hf _ h.metadata }

theorem HardwareCommand.Valid.mapMetadata {c : HardwareCommand} (h : c.Valid) :
    (c.mapMetadata f).Valid :=
  { h with metadata := hf _ h.metadata }

theorem Document.Valid.mapMetadata {d : Document} (h : d.Valid) : (d.mapMetadata f).Valid :=
  { h with
    metadata := hf _ h.metadata
    steps := List.forall_mem_map.2 fun s hs => (h.steps s hs).mapMetadata hf
    immediateCommands := List.forall_mem_map.2 fun c hc => (h.immediateCommands c hc).mapMetadata hf
    hardwareCommands := List.forall_mem_map.2 fun c hc => (h.hardwareCommands c hc).mapMetadata hf
    requests := List.forall_mem_map.2 fun r hr => (h.requests r hr).mapMetadata hf }

end

/-- A valid document is dumped as a valid one. -/
theorem Document.Valid.dumped {d : Document} (h : d.Valid) : d.dumped.Valid :=
  h.mapMetadata fun _ => Metadata.Valid.dumped

/-! ## Documents that UTF-8 has bytes for -/

theorem Step.dumped_eq {s : Step} (hvalid : s.Valid) (h : s.toJson.isEncodable = true) :
    s.mapMetadata Metadata.dumped = s := by
  simp only [toJson, Value.isEncodable, membersEncodable_append, Bool.and_eq_true] at h
  rw [mapMetadata, Metadata.dumped_eq hvalid.metadata (entries_encodable hvalid.metadata h.1.1.2)]

theorem Request.dumped_eq {r : Request} (hvalid : r.Valid) (h : r.toJson.isEncodable = true) :
    r.mapMetadata Metadata.dumped = r := by
  simp only [toJson, Value.isEncodable, membersEncodable_append, membersEncodable_field,
    Bool.and_eq_true] at h
  have hsteps := isEncodable_map.1 (by rw [Value.isEncodable]; exact h.1.1.1.1.2)
  rw [mapMetadata, Metadata.dumped_eq hvalid.metadata (entries_encodable hvalid.metadata h.2),
    map_eq_self fun s hs => Step.dumped_eq (hvalid.steps s hs) (hsteps s hs)]

theorem ImmediateCommand.dumped_eq {c : ImmediateCommand} (hvalid : c.Valid)
    (h : c.toJson.isEncodable = true) : c.mapMetadata Metadata.dumped = c := by
  simp only [toJson, Value.isEncodable, membersEncodable_append, Bool.and_eq_true] at h
  rw [mapMetadata, Metadata.dumped_eq hvalid.metadata (entries_encodable hvalid.metadata h.2)]

theorem HardwareCommand.dumped_eq {c : HardwareCommand} (hvalid : c.Valid)
    (h : c.toJson.isEncodable = true) : c.mapMetadata Metadata.dumped = c := by
  simp only [toJson, Value.isEncodable, membersEncodable_append, Bool.and_eq_true] at h
  rw [mapMetadata, Metadata.dumped_eq hvalid.metadata (entries_encodable hvalid.metadata h.2)]

/-- A document without halves of surrogate pairs is dumped as it is. -/
theorem Document.dumped_eq {d : Document} (hvalid : d.Valid) (h : d.toJson.isEncodable = true) :
    d.dumped = d := by
  simp only [toJson, Value.isEncodable, membersEncodable_append, membersEncodable_field,
    Bool.and_eq_true, membersEncodable_group] at h
  obtain ⟨⟨⟨⟨⟨⟨⟨-, hentries⟩, -⟩, -⟩, hsteps⟩, himmediate⟩, hhardware⟩, hrequests⟩ := h
  have hentries := isEncodable_object.1
    ((Value.Sound.isEncodable_nullNonFinite hvalid.metadata).1 hentries)
  rw [dumped, mapMetadata, Metadata.dumped_eq hvalid.metadata hentries,
    map_eq_self fun s hs => Step.dumped_eq (hvalid.steps s hs) (hsteps s hs),
    map_eq_self fun c hc => c.dumped_eq (hvalid.immediateCommands c hc) (himmediate c hc),
    map_eq_self fun c hc => c.dumped_eq (hvalid.hardwareCommands c hc) (hhardware c hc),
    map_eq_self fun r hr => Request.dumped_eq (hvalid.requests r hr) (hrequests r hr)]

end CommandSequence
