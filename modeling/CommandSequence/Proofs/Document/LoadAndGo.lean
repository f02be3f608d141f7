import CommandSequence.Proofs.Document.OfOutline
import CommandSequence.Proofs.Document.TextRoundTrip
import CommandSequence.Proofs.Text.Cut

/-!
# The load-and-go directive

The directive writes `true` under a key of the metadata, and an entry of the metadata may write that
key as well. The last of them counts: a document whose text has the directive is loaded and run
unless an entry below it writes a falsy value. Where it is, it stays so: its text has the line of
the directive again, and reads back as a document that is loaded and run (`loadAndGo_of_directive`).
-/

namespace CommandSequence

namespace OfOutline

/-! ## What is written under the key of the flag -/

/-- The value that an item writes under the key of the flag. -/
def flag? : Source.Item → Option Json.Value
  | .loadAndGo _ => some (.boolean true)
  | .metadata line =>
    match entry line with
    | .ok (key, value) => if key = Document.loadAndGoKey then some value else none
    | .error _ => none
  | _ => none

/-- The meaning of an item writes under the key what the item does. -/
theorem flag?_of_part {validate : Bool} {item : Source.Item} {p : Part}
    (h : part validate item = .ok p) :
    flag? item = p.metadata?.bind fun (key, value) =>
      if key = Document.loadAndGoKey then some value else none := by
  cases meansOf_of_part item p h with
  | metadata hentry => simp only [flag?, hentry, Part.metadata?, Option.bind_some]
  | _ => rfl

/-- The parts of items write under the key what the items do. -/
theorem written_of_parts {validate : Bool} {items : List Source.Item} {parts : List Part}
    (h : items.mapM (part validate) = .ok parts) :
    Dictionary.written Document.loadAndGoKey (parts.filterMap Part.metadata?) =
      items.filterMap flag? := by
  rw [mapM_eq_ok] at h
  rw [Dictionary.written, List.filterMap_filterMap]
  induction h with
  | nil => rfl
  | cons hpart _ ih => rw [List.filterMap_cons, List.filterMap_cons, flag?_of_part hpart, ih]

end OfOutline

namespace Document

open OfOutline (flag?)

variable {validate : Bool} {text : List Char} {outline : Source.Outline} {d : Document}

/-- The last value that is written under the key of the flag counts. -/
theorem loadAndGo_of_ofText (hread : Source.Outline.read text = .ok outline)
    (h : ofText validate text = .ok d) :
    d.loadAndGo = (outline.items.filterMap flag?).getLast?.any Json.Value.truthy := by
  obtain ⟨found, hfound, hdocument⟩ := ofText_eq_ok.1 h
  rw [hread] at hfound
  cases hfound
  obtain ⟨parts, hparts, hgather⟩ := bind_eq_ok.1 hdocument
  obtain ⟨id, -, rfl⟩ := OfOutline.gather_eq_ok.1 hgather
  rw [loadAndGo, Dictionary.get?_ofList, OfOutline.written_of_parts hparts]

/-! ## The line of the directive -/

/-- The text of a document that is loaded and run has the line of the directive. -/
theorem directive_mem_split {indent : Json.Indent} {written : List Char}
    (hwrite : d.write indent = .ok written) (hgo : d.loadAndGo = true) :
    String.toList "@LOAD_AND_GO" ∈ Cut.split '\n' written := by
  obtain ⟨parameters, locals, metadata, steps, immediate, hardware, requests, -, -, -, -, -, -, -,
    rfl⟩ := write_eq_ok hwrite
  have hline : ToText.fixed "\n@LOAD_AND_GO" = ('\n' : Char) :: String.toList "@LOAD_AND_GO" := by
    decide
  rw [hgo, if_pos rfl, hline, List.append_assoc, List.append_assoc, List.append_assoc,
    List.cons_append]
  exact Cut.mem_split _ (by decide) (apart_body steps immediate hardware requests)

/-- A text with the directive gives a document that is loaded and run just if the last value written
below it under its key, if there is one, is truthy. Written out, such a document has the line of the
directive again, and reads back as one that is loaded and run. -/
theorem loadAndGo_of_directive {before after : List Source.Item} {position : Source.Position}
    (hread : Source.Outline.read text = .ok outline)
    (hitems : outline.items = before ++ .loadAndGo position :: after)
    (h : ofText validate text = .ok d) :
    (d.loadAndGo = true ↔
      ∀ value, (after.filterMap flag?).getLast? = some value → value.truthy = true) ∧
    (d.loadAndGo = true → ∀ indent written, d.write indent = .ok written →
      String.toList "@LOAD_AND_GO" ∈ Cut.split '\n' written ∧
      Succeeds (ofText validate written) fun d' => d'.loadAndGo = true) := by
  -- the directive writes over whatever stands above it
  have hflag : (outline.items.filterMap flag?).getLast? =
      (after.filterMap flag?).getLast?.or (some (.boolean true)) := by
    have hfirst : flag? (.loadAndGo position) = some (.boolean true) := rfl
    rw [hitems, List.filterMap_append, List.filterMap_cons_some hfirst, List.getLast?_append,
      List.getLast?_cons]
    cases (after.filterMap flag?).getLast? <;> rfl
  refine ⟨?_, fun hgo indent written hwrite => ⟨directive_mem_split hwrite hgo, ?_⟩⟩
  · rw [loadAndGo_of_ofText hread h, hflag]
    cases (after.filterMap flag?).getLast? with
    | none => simp [Json.Value.truthy]
    | some value => simp
  · obtain ⟨hvalid, htagged, -, -⟩ := readable_of_ofText h
    exact ⟨d.reread, ofText_write hvalid htagged hwrite, (loadAndGo_reread d).trans hgo⟩

/-- Whether an item is the directive. -/
def isDirective : Source.Item → Bool
  | .loadAndGo _ => true
  | _ => false

theorem exists_directive {items : List Source.Item} {n : Nat}
    (h : items[n]?.any isDirective = true) :
    ∃ position, items = items.take n ++ .loadAndGo position :: items.drop (n + 1) := by
  obtain ⟨item, hitem, hdirective⟩ := (Option.any_eq_true ..).1 h
  obtain ⟨hn, hget⟩ := List.getElem?_eq_some_iff.1 hitem
  cases item with
  | loadAndGo position =>
    exact ⟨position, by rw [← hget, ← List.drop_eq_getElem_cons hn, List.take_append_drop]⟩
  | _ => cases hdirective

/-- A text with entries under the key before and after the directive, the last of them truthy. -/
def keptFlag : List Char :=
  String.toList "@ID \"demo\"\n@METADATA \"lgo\" false\n@LOAD_AND_GO\n" ++
    String.toList "@METADATA \"lgo\" []\n@METADATA \"\\u006cgo\" \"again\"\n@METADATA \"k\" 0\n"

theorem loadAndGo_of_directive_between : ∃ outline before position after d written,
    Source.Outline.read keptFlag = .ok outline ∧
      outline.items = before ++ .loadAndGo position :: after ∧
      ofText true keptFlag = .ok d ∧ d.loadAndGo = true ∧ d.write none = .ok written ∧
      String.toList "@LOAD_AND_GO" ∈ Cut.split '\n' written ∧
      Succeeds (ofText true written) fun d' => d'.loadAndGo = true := by
  have hshape : (Source.Outline.read keptFlag).toOption.any (fun outline =>
      outline.items[2]?.any isDirective &&
        ((outline.items.drop 3).filterMap flag?).getLast?.all Json.Value.truthy) = true := by
    decide +kernel
  have hwritten : (ofText true keptFlag).toOption.any (fun d => (d.write none).toOption.isSome) =
      true := by decide +kernel
  obtain ⟨outline, hread, hshape⟩ := succeeds_of_any hshape
  obtain ⟨d, hd, hwritten⟩ := succeeds_of_any hwritten
  obtain ⟨written, hwrite⟩ := Option.isSome_iff_exists.1 hwritten
  rw [toOption_eq_some] at hwrite
  obtain ⟨hdirective, hlast⟩ := Bool.and_eq_true_iff.1 hshape
  obtain ⟨position, hitems⟩ := exists_directive hdirective
  obtain ⟨hflag, hkept⟩ := loadAndGo_of_directive hread hitems hd
  have hgo := hflag.2 fun value hvalue => by simpa [hvalue] using hlast
  obtain ⟨hline, hback⟩ := hkept hgo none written hwrite
  exact ⟨outline, _, position, _, d, written, hread, hitems, hd, hgo, hwrite, hline, hback⟩

/-- A text whose entry below the directive writes `false` under its key. -/
def lostFlag : List Char :=
  String.toList "@ID \"d\"\n@LOAD_AND_GO\n@METADATA \"lgo\" false\n"

/-- A falsy entry below the directive takes the flag away. -/
theorem loadAndGo_lost : ∃ outline position d, Source.Outline.read lostFlag = .ok outline ∧
    .loadAndGo position ∈ outline.items ∧ ofText true lostFlag = .ok d ∧ d.loadAndGo = false := by
  have hshape : (Source.Outline.read lostFlag).toOption.any (fun outline =>
      outline.items.any fun
        | .loadAndGo _ => true
        | _ => false) = true := by decide +kernel
  have hflag : (ofText true lostFlag).toOption.any (fun d => !d.loadAndGo) = true := by
    decide +kernel
  obtain ⟨outline, hread, hshape⟩ := succeeds_of_any hshape
  obtain ⟨d, hd, hflag⟩ := succeeds_of_any hflag
  obtain ⟨item, hmem, hitem⟩ := List.any_eq_true.1 hshape
  split at hitem
  · next position => exact ⟨outline, position, d, hread, hmem, hd, by simpa using hflag⟩
  · cases hitem

end Document

end CommandSequence
