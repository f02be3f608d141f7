import CommandSequence.Proofs.Document.TextRoundTrip

/-!
# Metadata is read back from its lines

Metadata with finite numbers can be written unless an integer in it is too long
(`Metadata.decides_write_of_finite`). Below the line of an identifier, the written lines are read as
one entry for each key, in order (`Metadata.readsLines_identified`), and the entries make up the
metadata again, whatever the indentation that they were written with (`Metadata.ofText_identified`).
-/

namespace CommandSequence

open OfOutline (Part)
open ReadBack (ReadsLines InHeader)
open Source (Place Line Item MetadataLine nextLine)

namespace Metadata

variable {m : Metadata} {id : String} {indent : Json.Indent} {text rest : List Char}

/-! ## What can be written -/

/-- With finite numbers, only integers that are too long cannot be written. -/
theorem unwritable_eq_nil_iff {value : Json.Value}
    (h : value.Sound fun n => n.isFinite = true) :
    value.unwritable = [] ↔ value.Sound (Number.Fits false) := by
  constructor
  · intro hnone
    exact (h.writable hnone).mono fun n hn => (Number.isWritable_iff.1 hn).1
  · intro hfits
    refine List.eq_nil_iff_forall_not_mem.2 fun n hn => ?_
    obtain ⟨hfinite, hnot⟩ := h.of_mem_unwritable hn
    have hwritable := Number.isWritable_iff.2 ⟨(hfits.of_mem_unwritable hn).1, hfinite⟩
    rw [hwritable] at hnot
    cases hnot

theorem decides_writeEntry_of_finite {value : Json.Value}
    (h : value.Sound fun n => n.isFinite = true) (indent : Json.Indent) (key : String) :
    Decides (· = .overlongMetadata key) (writeEntry indent key value)
      (value.Sound (Number.Fits false)) := by
  refine Decides.congr ?_ (unwritable_eq_nil_iff h)
  unfold writeEntry
  cases hunwritable : value.unwritable with
  | nil => exact (Decides.ok _ _).congr (iff_of_true trivial rfl)
  | cons n others =>
    refine ⟨fun hnil => absurd hnil (List.cons_ne_nil n others), fun _ => ?_⟩
    have hn : n ∈ value.unwritable := hunwritable ▸ List.mem_cons_self ..
    obtain ⟨hfinite, hnot⟩ := h.of_mem_unwritable hn
    cases n with
    | int n => exact ⟨_, rfl, rfl⟩
    | float x =>
      -- a floating-point number that cannot be written is not finite
      exact absurd hfinite (Bool.eq_false_iff.1 hnot)

/-- Metadata with finite numbers has a text if its integers are short enough, and otherwise the
error names a key whose value has one that is not. -/
theorem decides_write_of_finite (h : (Json.Value.object m).Sound fun n => n.isFinite = true)
    (indent : Json.Indent) :
    Decides (fun e => ∃ key ∈ m.map Prod.fst, e = .overlongMetadata key) (m.write indent)
      m.Valid := by
  cases h with
  | object hkeys hvalues =>
    have hentries : Decides (fun e => ∃ key ∈ m.map Prod.fst, e = .overlongMetadata key)
        (m.write indent) (∀ entry ∈ m, entry.2.Sound (Number.Fits false)) := by
      refine (Decides.mapM fun entry hentry => ?_).bind_ok
      have hentry' := decides_writeEntry_of_finite (hvalues entry hentry) indent entry.1
      refine ⟨hentry'.result, fun hnot => ?_⟩
      obtain ⟨e, he, hkey⟩ := hentry'.error hnot
      exact ⟨e, he, entry.1, List.mem_map_of_mem hentry, hkey⟩
    exact hentries.congr ⟨fun hsound => .object hkeys hsound, fun hvalid => hvalid.sound⟩

theorem valid_of_write (h : (Json.Value.object m).Sound fun n => n.isFinite = true)
    (hwrite : m.write indent = .ok text) : m.Valid := by
  by_contra hnot
  obtain ⟨e, he, -⟩ := (decides_write_of_finite h indent).error hnot
  rw [hwrite] at he
  cases he

/-! ## Reading the lines -/

/-- The items are an identifier and below it one metadata entry for each key. -/
def Lists (id : String) (m : Metadata) (items : List Item) : Prop :=
  ∃ position name, ∃ entries : List MetadataLine,
    items = .id position name :: entries.map .metadata ∧ OfOutline.string name = .ok id ∧
      List.Forall₂ (fun entry field => OfOutline.entry entry = .ok field) entries m

/-- An identifier and metadata are gathered into a document that has nothing else. -/
theorem gather_fields (hkeys : Dictionary.Distinct m) (id : String) :
    OfOutline.gather (.id id :: m.map fun field => Part.metadata field.1 field.2) =
      .ok ⟨id, m, [], [], [], [], [], []⟩ := by
  have hmetadata : (Part.id id :: m.map fun field => Part.metadata field.1 field.2).filterMap
      Part.metadata? = m := by
    rw [List.filterMap_cons_none rfl, List.filterMap_map]
    exact List.filterMap_some
  have hnone {α : Type} (pick : Part → Option α) (hid : pick (.id id) = none)
      (hpick : ∀ key value, pick (.metadata key value) = none) :
      (Part.id id :: m.map fun field => Part.metadata field.1 field.2).filterMap pick = [] := by
    rw [List.filterMap_cons_none hid, List.filterMap_map, List.filterMap_eq_nil_iff]
    exact fun field _ => hpick field.1 field.2
  have hempty {α : Type} (pick : Part → List α) (hid : pick (.id id) = [])
      (hpick : ∀ key value, pick (.metadata key value) = []) :
      (Part.id id :: m.map fun field => Part.metadata field.1 field.2).flatMap pick = [] := by
    rw [List.flatMap_cons, hid, List.nil_append, List.flatMap_map, List.flatMap_eq_nil_iff]
    exact fun field _ => hpick field.1 field.2
  have hid : (Part.id id :: m.map fun field => Part.metadata field.1 field.2).findSome? Part.id? =
      some id := rfl
  simp only [OfOutline.gather, hid, hmetadata, Dictionary.ofList_of_distinct hkeys,
    hnone Part.step? rfl fun _ _ => rfl, hnone Part.request? rfl fun _ _ => rfl,
    hempty (Part.declarationsOf _) rfl fun _ _ => rfl,
    hempty Part.immediateCommands rfl fun _ _ => rfl,
    hempty Part.hardwareCommands rfl fun _ _ => rfl]

/-- The document that the items describe has the metadata and nothing else. -/
theorem Lists.ofOutline {outline : Source.Outline} (h : Lists id m outline.items)
    (hkeys : Dictionary.Distinct m) (validate : Bool) :
    Document.ofOutline validate outline = .ok ⟨id, m, [], [], [], [], [], []⟩ := by
  obtain ⟨position, name, entries, hitems, hname, hentries⟩ := h
  have hfields : (entries.map Item.metadata).mapM (OfOutline.part validate) =
      .ok (m.map fun field => Part.metadata field.1 field.2) := by
    rw [mapM_eq_ok, List.forall₂_map_left_iff, List.forall₂_map_right_iff]
    refine hentries.imp fun entry field hfield => ?_
    rw [OfOutline.part, hfield]
    rfl
  have hid : OfOutline.part validate (.id position name) = .ok (.id id) := by
    rw [OfOutline.part, hname]
    rfl
  have hparts : outline.items.mapM (OfOutline.part validate) =
      .ok (.id id :: m.map fun field => Part.metadata field.1 field.2) := by
    rw [hitems, List.mapM_cons, hid, hfields]
    rfl
  rw [Document.ofOutline, hparts, ok_bind, gather_fields hkeys]

/-- The text of an identifier's line with another text below it. -/
def identified (id : String) (text : List Char) : List Char :=
  ToText.fixed "@ID " ++ (ToText.quoted id ++ [('\n' : Char)]) ++ text

/-- The written lines are read as one entry for each key. -/
theorem readsLines_written {place : Place} (hplace : InHeader place) (hvalid : m.Valid)
    (hwrite : m.write indent = .ok text) :
    ReadsLines place text rest InHeader fun lines => ∃ entries : List MetadataLine,
      lines = entries.map .metadata ∧
        List.Forall₂ (fun entry field => OfOutline.entry entry = .ok field) entries m := by
  obtain ⟨texts, htexts, heq⟩ := bind_eq_ok.1 hwrite
  cases heq
  have hline : ∀ field ∈ m, ∀ text p rest, writeEntry indent field.1 field.2 = .ok text →
      InHeader p → ReadsLines p text rest InHeader fun lines =>
        ∃ entry, lines = [.metadata entry] ∧ OfOutline.entry entry = .ok field := by
    intro field hfield text p rest hwrite hp
    refine ReadsLines.line (ReadBack.readsLine_header (hp.between.opens _ (by decide)) hp.1
      (hvalid.sound field hfield) hwrite) ⟨rfl, .inl rfl⟩ ?_
    rintro _ ⟨entry, rfl, hentry⟩
    exact ⟨entry, rfl, hentry⟩
  refine (ReadsLines.flatten hplace htexts hline).mono (fun _ h => h) ?_
  rintro _ ⟨runs, rfl, hruns⟩
  clear * - hruns
  induction hruns with
  | nil => exact ⟨[], rfl, .nil⟩
  | cons hfirst _ ih =>
    obtain ⟨entry, rfl, hentry⟩ := hfirst
    obtain ⟨entries, hlines, hentries⟩ := ih
    exact ⟨entry :: entries, congrArg (_ :: ·) hlines, .cons hentry hentries⟩

/-- The text is read as the identifier and the entries. -/
theorem readsLines_identified (hvalid : m.Valid) (hwrite : m.write indent = .ok text) :
    ReadsLines Place.start (identified id text) rest InHeader fun lines =>
      ∃ items : List Item, lines = items.flatMap Item.lines ∧ Lists id m items := by
  have hfirst : ReadsLines Place.start
      (ToText.fixed "@ID " ++ (ToText.quoted id ++ [('\n' : Char)]))
      (text ++ rest) InHeader fun lines => ∃ position name, lines = [.id position name] ∧
        OfOutline.string name = .ok id := by
    refine ReadsLines.line (ReadBack.readsLine_id (Place.opens_of_single rfl))
      ⟨rfl, .inr ⟨rfl, .inl rfl⟩⟩ ?_
    rintro _ ⟨position, name, rfl, hname⟩
    exact ⟨position, name, rfl, hname⟩
  refine (hfirst.append fun p hp => readsLines_written hp hvalid hwrite).mono (fun _ h => h) ?_
  rintro _ ⟨_, _, rfl, ⟨position, name, rfl, hname⟩, entries, rfl, hentries⟩
  refine ⟨.id position name :: entries.map .metadata, ?_, position, name, entries, rfl, hname,
    hentries⟩
  rw [List.flatMap_cons, List.flatMap_map]
  exact congrArg (_ :: ·) List.map_eq_flatMap

theorem read_identified (hvalid : m.Valid) (hwrite : m.write indent = .ok text) :
    ∃ outline, Source.Outline.read (identified id text) = .ok outline ∧
      Lists id m outline.items := by
  have hbegins (rest : List Char) :
      nextLine (identified id text ++ rest) = identified id text ++ rest := by
    simp only [identified, List.append_assoc]
    exact Source.nextLine_cons (by decide) _
  refine Document.read_of_readsLines_terminated hbegins fun rest _ => ?_
  exact (readsLines_identified hvalid hwrite).mono
    (fun p hp => ⟨false, hp.between.mono (by decide)⟩) fun _ hlists => hlists

/-- Metadata with finite numbers has a text, at every indentation, unless an integer in it is too
long. Below the line of an identifier the text holds one entry for each key, in order and with the
value of the key, and the document that is read from it has the metadata and nothing else. So the
indentation makes no difference to what is read. -/
theorem ofText_identified (h : (Json.Value.object m).Sound fun n => n.isFinite = true)
    (id : String) (validate : Bool) :
    (∀ indent, Decides (fun e => ∃ key ∈ m.map Prod.fst, e = .overlongMetadata key)
      (m.write indent) m.Valid) ∧
    (∀ indent text, m.write indent = .ok text →
      (∃ outline, Source.Outline.read (identified id text) = .ok outline ∧
        Lists id m outline.items) ∧
      Document.ofText validate (identified id text) = .ok ⟨id, m, [], [], [], [], [], []⟩) ∧
    ∀ indent indent' text text', m.write indent = .ok text → m.write indent' = .ok text' →
      Document.ofText validate (identified id text) =
        Document.ofText validate (identified id text') := by
  have hread (indent text) (hwrite : m.write indent = .ok text) :
      ∃ outline, Source.Outline.read (identified id text) = .ok outline ∧
        Lists id m outline.items :=
    read_identified (valid_of_write h hwrite) hwrite
  have hofText (indent text) (hwrite : m.write indent = .ok text) :
      Document.ofText validate (identified id text) = .ok ⟨id, m, [], [], [], [], [], []⟩ := by
    obtain ⟨outline, houtline, hlists⟩ := hread indent text hwrite
    have hkeys := ReadBack.distinct_of_valid (valid_of_write h hwrite)
    rw [Document.ofText, houtline]
    simp only [hlists.ofOutline hkeys validate]
  refine ⟨decides_write_of_finite h, fun indent text hwrite => ⟨hread indent text hwrite,
    hofText indent text hwrite⟩, fun indent indent' text text' hwrite hwrite' => ?_⟩
  rw [hofText indent text hwrite, hofText indent' text' hwrite']

/-- Metadata with values in one another, one of them under the key of the load-and-go flag. -/
def nestedMetadata : Metadata :=
  [("k", .object [("b", .array [.number (.int (-7)), .number (.float (.zero true)), .array []]),
    ("a\n", .object [])]), ("lgo", .string "\"")]

/-- The metadata on one line for each key. -/
def nestedLines : List Char :=
  String.toList "@METADATA \"k\" \x7b\"b\": [-7, -0.0, []], \"a\\n\": \x7b\x7d\x7d\n" ++
    String.toList "@METADATA \"lgo\" \"\\\"\"\n"

/-- The metadata spread over lines. -/
def nestedSpread : List Char :=
  String.toList "@METADATA \"k\" \x7b\n \"b\": [\n  -7,\n  -0.0,\n  []\n ],\n" ++
    String.toList " \"a\\n\": \x7b\x7d\n\x7d\n@METADATA \"lgo\" \"\\\"\"\n"

theorem sound_nestedMetadata :
    (Json.Value.object nestedMetadata).Sound fun n => n.isFinite = true := by
  have hitems : (Json.Value.array [.number (.int (-7)), .number (.float (.zero true)),
      .array []]).Sound fun n => n.isFinite = true := by
    refine .array fun v hv => ?_
    simp only [List.mem_cons, List.not_mem_nil, or_false] at hv
    rcases hv with rfl | rfl | rfl
    · exact .number rfl
    · exact .number rfl
    · exact .array (List.forall_mem_nil _)
  have hobject : (Json.Value.object [("b", .array [.number (.int (-7)),
      .number (.float (.zero true)), .array []]), ("a\n", .object [])]).Sound
      fun n => n.isFinite = true := by
    refine .object (by unfold Dictionary.Distinct; decide) fun v hv => ?_
    simp only [List.mem_cons, List.not_mem_nil, or_false] at hv
    rcases hv with rfl | rfl
    · exact hitems
    · exact .object List.nodup_nil (List.forall_mem_nil _)
  refine .object (by unfold Dictionary.Distinct; decide) fun v hv => ?_
  rcases List.mem_cons.1 hv with rfl | hv
  · exact hobject
  · rw [List.mem_singleton.1 hv]
    exact .string _

theorem ofText_identified_nested :
    (Json.Value.object nestedMetadata).Sound (fun n => n.isFinite = true) ∧
    nestedMetadata.write none = .ok nestedLines ∧
    nestedMetadata.write (some 1) = .ok nestedSpread ∧
    Document.ofText true (identified "x" nestedLines) =
      .ok ⟨"x", nestedMetadata, [], [], [], [], [], []⟩ ∧
    Document.ofText true (identified "x" nestedLines) =
      Document.ofText true (identified "x" nestedSpread) := by
  have hlines : nestedMetadata.write none = .ok nestedLines := by decide +kernel
  have hspread : nestedMetadata.write (some 1) = .ok nestedSpread := by decide +kernel
  obtain ⟨-, hread, hsame⟩ := ofText_identified sound_nestedMetadata "x" true
  exact ⟨sound_nestedMetadata, hlines, hspread, (hread _ _ hlines).2, hsame _ _ _ _ hlines hspread⟩

end Metadata

end CommandSequence
