import CommandSequence.Proofs.Document.JsonRoundTrip
import CommandSequence.Proofs.Document.TextRoundTrip

/-!
# Writing after a detour through JSON

JSON has null for the numbers that are not finite, which only metadata can hold. What has such a
number in metadata cannot be written as sequence text, the load-and-go flag apart: its value is not
written, only whether it counts as true. So a document that can be written has the same text after
the detour, unless its flag is such a number itself (`Document.write_norm`).
-/

namespace CommandSequence

open Json (Value)

variable {indent : Json.Indent} {text : List Char}

/-- An entry of metadata that can be written is finite. -/
theorem Metadata.nullNonFinite_of_write {key : String} {value : Value}
    (hvalue : value.Sound (Number.Fits false)) (h : writeEntry indent key value = .ok text) :
    value.nullNonFinite = value :=
  (ReadBack.writeEntry_eq_ok h hvalue).2.nullNonFinite_eq

/-- The entries of metadata that can be written are finite. -/
theorem Metadata.map_nullNonFinite {m : Metadata} {lines : List (List Char)}
    (hvalid : ∀ entry ∈ m, entry.2.Sound (Number.Fits false))
    (h : m.mapM (fun (key, value) => writeEntry indent key value) = .ok lines) :
    m.map (fun entry => (entry.1, entry.2.nullNonFinite)) = m := by
  refine map_eq_self_of_mapM h fun entry hentry line hline => ?_
  exact Prod.ext rfl (nullNonFinite_of_write (hvalid entry hentry) hline)

theorem Metadata.norm_of_write {m : Metadata} (hvalid : m.Valid) (h : m.write indent = .ok text) :
    m.norm = m := by
  obtain ⟨lines, hlines, -⟩ := bind_eq_ok.1 h
  cases hvalid with
  | object _ hvalues =>
    exact (Value.nullNonFiniteMembers_eq m).trans (map_nullNonFinite hvalues hlines)

theorem Step.norm_of_write {s : Step} (hvalid : s.Valid) (h : s.write indent = .ok text) :
    s.mapMetadata Metadata.norm = s := by
  obtain ⟨_, -, h⟩ := bind_eq_ok.1 h
  obtain ⟨_, -, h⟩ := bind_eq_ok.1 h
  obtain ⟨_, -, h⟩ := bind_eq_ok.1 h
  obtain ⟨_, hmetadata, -⟩ := bind_eq_ok.1 h
  rw [mapMetadata, Metadata.norm_of_write hvalid.metadata hmetadata]

theorem Request.norm_of_write {r : Request} (hvalid : r.Valid) (h : r.write indent = .ok text) :
    r.mapMetadata Metadata.norm = r := by
  obtain ⟨_, -, h⟩ := bind_eq_ok.1 h
  obtain ⟨_, -, h⟩ := bind_eq_ok.1 h
  obtain ⟨_, hsteps, h⟩ := bind_eq_ok.1 h
  obtain ⟨_, hmetadata, -⟩ := bind_eq_ok.1 h
  rw [mapMetadata, Metadata.norm_of_write hvalid.metadata hmetadata,
    map_eq_self_of_mapM hsteps fun s hs _ => Step.norm_of_write (hvalid.steps s hs)]

theorem ImmediateCommand.norm_of_write {c : ImmediateCommand} (hvalid : c.Valid)
    (h : c.write indent = .ok text) : c.mapMetadata Metadata.norm = c := by
  obtain ⟨_, -, h⟩ := bind_eq_ok.1 h
  obtain ⟨_, -, h⟩ := bind_eq_ok.1 h
  obtain ⟨_, hmetadata, -⟩ := bind_eq_ok.1 h
  rw [mapMetadata, Metadata.norm_of_write hvalid.metadata hmetadata]

theorem HardwareCommand.norm_of_write {c : HardwareCommand} (hvalid : c.Valid)
    (h : c.write indent = .ok text) : c.mapMetadata Metadata.norm = c := by
  obtain ⟨_, -, h⟩ := bind_eq_ok.1 h
  obtain ⟨_, hmetadata, -⟩ := bind_eq_ok.1 h
  rw [mapMetadata, Metadata.norm_of_write hvalid.metadata hmetadata]

namespace Document

variable {d : Document}

/-- The load-and-go flag is no number that is not finite. -/
def FiniteFlag (d : Document) : Prop :=
  ∀ x, d.metadata.get? loadAndGoKey = some (.number (.float x)) → x.isFinite = true

/-- A finite flag counts as true or not as it did. -/
theorem loadAndGo_norm (h : d.FiniteFlag) : d.norm.loadAndGo = d.loadAndGo := by
  have hget : Dictionary.get? loadAndGoKey d.norm.metadata =
      (Dictionary.get? loadAndGoKey d.metadata).map Value.nullNonFinite := by
    rw [← Dictionary.get?_map, ← Value.nullNonFiniteMembers_eq]
    rfl
  unfold loadAndGo
  rw [hget, Option.any_map]
  cases hvalue : Dictionary.get? loadAndGoKey d.metadata with
  | none => rfl
  | some value =>
    cases value with
    | null | boolean | string => rfl
    | array items =>
      cases items <;> rfl
    | object members =>
      cases members <;> rfl
    | number n =>
      cases n with
      | int n => rfl
      | float x =>
        have hfinite : Value.nullNonFinite (.number (.float x)) = .number (.float x) :=
          if_pos (h x hvalue)
        simp only [Option.any_some, hfinite]

/-- A document that can be written is written the same with null for the numbers of its metadata
that are not finite. -/
theorem write_norm (hvalid : d.Valid) (hflag : d.FiniteFlag) (h : d.write indent = .ok text) :
    d.norm.write indent = .ok text := by
  obtain ⟨_, _, metadata, steps, immediate, hardware, requests, -, -, hmetadata, hsteps, himmediate,
    hhardware, hrequests, -⟩ := write_eq_ok h
  have hvalues : ∀ entry ∈ d.metadata, entry.2.Sound (Number.Fits false) := by
    cases hvalid.metadata with
    | object _ hvalues => exact hvalues
  have hfiltered : d.norm.metadata.filter (·.1 != loadAndGoKey) =
      d.metadata.filter (·.1 != loadAndGoKey) := by
    have hmap := Metadata.map_nullNonFinite
      (fun entry hentry => hvalues entry (List.mem_of_mem_filter hentry)) hmetadata
    calc d.norm.metadata.filter (·.1 != loadAndGoKey)
        = (d.metadata.map fun entry => (entry.1, entry.2.nullNonFinite)).filter
            (·.1 != loadAndGoKey) := by
          rw [← Value.nullNonFiniteMembers_eq]
          rfl
      _ = (d.metadata.filter (·.1 != loadAndGoKey)).map
            fun entry => (entry.1, entry.2.nullNonFinite) := List.filter_map
      _ = d.metadata.filter (·.1 != loadAndGoKey) := hmap
  rw [← h]
  simp only [write, hfiltered, loadAndGo_norm hflag]
  simp only [norm, mapMetadata,
    map_eq_self_of_mapM hsteps fun s hs _ => Step.norm_of_write (hvalid.steps s hs),
    map_eq_self_of_mapM himmediate fun c hc _ =>
      ImmediateCommand.norm_of_write (hvalid.immediateCommands c hc),
    map_eq_self_of_mapM hhardware fun c hc _ =>
      HardwareCommand.norm_of_write (hvalid.hardwareCommands c hc),
    map_eq_self_of_mapM hrequests fun r hr _ => Request.norm_of_write (hvalid.requests r hr)]

end Document

end CommandSequence
