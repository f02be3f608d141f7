import CommandSequence.Proofs.CommandLine.Run
import CommandSequence.Proofs.Document.Detour
import CommandSequence.Proofs.Document.OfOutline
import CommandSequence.Proofs.Document.Kept
import CommandSequence.Proofs.Document.RoundTrips

/-!
# Compiling and decompiling files

If the file system lets the outputs be written (`Route`), a conversion finishes, and compiling a
file and decompiling the result writes what reformatting the text gives, for documents that JSON can
hold.
-/

namespace CommandSequence

namespace CommandLine

variable {refuses : Document → Bool} {s : Settings} {o o' : Options} {t t' t'' : FileTree}
  {direction : Direction}
  {source target source' target' : Path} {content : ByteArray} {text written : List Char}
  {d : Document}

/-! ## Conversions that finish -/

/-- The source of a conversion is there, and writing a content to its target leaves a tree. -/
structure Route (o : Options) (t : FileTree) (source target : Path) (content : ByteArray)
    (t' : FileTree) : Prop where
  input : ∃ file, o.inputFile = some file ∧ source = o.inputDirectory.join (.ofText file)
  possible : source.isPossible = true
  present : t.present source = .ok true
  output : ∃ directory direction name, o.outputDirectory = some directory ∧
    direction? (lowerSuffix source.name) = some direction ∧
    defaultName direction source.name = .ok name ∧ target = outputPath o directory name ∧
    directory.isPossible = true ∧ (t.makeDirectories directory).2 = none ∧
    target.isPossible = true ∧ (t.makeDirectories directory).1.write target content = .ok t'

/-- What was written to the target can be read. -/
theorem Route.read_target (h : Route o t source target content t') :
    t'.read target = .ok content := by
  obtain ⟨_, _, _, -, -, -, -, -, -, -, hwrite⟩ := h.output
  exact FileTree.read_write hwrite

/-- A conversion finishes and leaves a tree. -/
def Finishes (refuses : Document → Bool) (s : Settings) (o : Options) (t t' : FileTree) : Prop :=
  (runOn refuses s o t).1 = .finished ∧ (runOn refuses s o t).2.tree = t'

/-- A conversion finishes if its text is converted and its output can be written. -/
theorem finishes_of_route (hroute : Route o t source target (encode written) t')
    (hdirection : direction? (lowerSuffix source.name) = some direction)
    (hread : t.read source = .ok content) (hdecode : decode? content = some text)
    (hconvert : (convert refuses s direction text).result = .ok (d, written))
    (hencodable : (String.ofList written).isEncodable = true) : Finishes refuses s o t t' := by
  obtain ⟨⟨file, hfile, hsource⟩, hpossible, hpresent, directory, direction', name, houtput,
    hdirection', hname, htarget, hdirectory, hmade, hwritable, hwrite⟩ := hroute
  obtain rfl : direction = direction' := Option.some.inj (hdirection.symm.trans hdirection')
  have hgrows := (t.made_makeDirectories directory).grows
  have hrun : Leads (run treeSystem refuses s o) t fun ending tree =>
      ending = .finished ∧ tree = t' := by
    unfold run
    refine .report ?_
    rw [hfile]
    refine .look ?_
    rw [← hsource, if_pos hpossible, hpresent]
    dsimp only
    unfold direct
    refine .report ?_
    dsimp only
    rw [hdirection]
    dsimp only
    rw [hname]
    dsimp only
    unfold prepare
    rw [houtput]
    dsimp only
    rw [if_pos hdirectory]
    refine .makeDirectories ?_
    rw [hmade]
    dsimp only
    refine .report ?_
    unfold process
    refine .report (.read ?_)
    rw [hgrows.read hpresent, hread]
    dsimp only
    rw [hdecode]
    refine .report (.report ?_)
    rw [hconvert]
    dsimp only
    unfold finish
    rw [← htarget, if_pos hwritable, encode?_eq_some hencodable]
    refine .write (fun tree htree => ?_) fun e he => ?_
    · obtain rfl : t' = tree := Except.ok.inj (hwrite.symm.trans htree)
      exact .report (.pure ⟨rfl, rfl⟩)
    · rw [hwrite] at he
      cases he
  exact hrun []

/-! ## There and back -/

theorem direction?_of_textSuffix {suffix : List Char} (h : suffix ∈ textSuffixes) :
    direction? suffix = some .compile :=
  if_pos (List.contains_iff_mem.2 h)

theorem direction?_of_jsonSuffix {suffix : List Char} (h : suffix ∈ jsonSuffixes) :
    direction? suffix = some .decompile := by
  have htext : ¬textSuffixes.contains suffix = true := by
    rw [List.mem_singleton.1 h]
    decide
  rw [direction?, if_neg htext, if_pos (List.contains_iff_mem.2 h)]

/-- A file that reads as a text is compiled to JSON, and the file of that is decompiled: what there
is to read and to write. -/
structure Relay (o o' : Options) (t t' t'' : FileTree) (source target source' target' : Path)
    (text json written : List Char) : Prop where
  suffix : lowerSuffix source.name ∈ textSuffixes
  text : ∃ content, t.read source = .ok content ∧ decode? content = some text
  compile : Route o t source target (encode json) t'
  jsonSuffix : lowerSuffix source'.name ∈ jsonSuffixes
  json : t'.read source' = t'.read target
  decompile : Route o' t' source' target' (encode written) t''

/-- The library that dumps documents refuses none that keeps the limits of the reader of JSON. -/
def Dumps (refuses : Document → Bool) : Prop :=
  ∀ d : Document, d.toJson.Fits .document → refuses d = false

/-- Going through JSON loses nothing of a text that can be reformatted, if its document keeps the
limits of the JSON reader and the load-and-go flag is no number that is not finite: the JSON text is
decompiled to what reformatting gives, and so is the file that a text file is compiled to. -/
theorem decompile_compile (hdumps : Dumps refuses)
    (hread : Document.ofText s.validateTimeTags text = .ok d)
    (hwrite : d.write s.indent = .ok written) (hfits : d.toJson.Fits .document)
    (hflag : d.FiniteFlag) :
    (∀ indent, ∃ d', Document.ofJsonText (d.toJsonText indent) = .ok d' ∧
      d'.write s.indent = .ok written) ∧
    ∀ o o' t t' t'' source target source' target',
      Relay o o' t t' t'' source target source' target' text
        (d.toJsonText (some 2) ++ [('\n' : Char)]) written →
      Finishes refuses s o t t' ∧ Finishes refuses s o' t' t'' ∧
        ∃ content, t''.read target' = .ok content ∧ decode? content = some written := by
  have hreadable := Document.readable_of_ofText hread
  have hnorm : d.norm.write s.indent = .ok written :=
    Document.write_norm hreadable.valid hflag hwrite
  refine ⟨fun indent =>
    ⟨d.norm, Document.ofJsonText_toJsonText_of_fits hreadable.valid hfits, hnorm⟩, ?_⟩
  rintro o o' t t' t'' source target source' target'
    ⟨hsuffix, ⟨content, hcontent, hdecode⟩, hroute, hsuffix', hsame, hroute'⟩
  have hcompile : (convert refuses s .compile text).result =
      .ok (d, d.toJsonText (some 2) ++ [('\n' : Char)]) := by
    simp only [convert, hread, hdumps d hfits, Bool.false_eq_true, if_false]
  have hkept : Lines.Kept true (d.toJsonText (some 2) ++ [('\n' : Char)]) := by
    rw [Lines.kept_append, Document.kept_toJsonText hreadable.valid,
      Document.dumped_eq hreadable.valid hfits.isEncodable]
    exact ⟨hfits.isEncodable, by decide⟩
  have hdecompile :
      (convert refuses s .decompile (d.toJsonText (some 2) ++ [('\n' : Char)])).result =
      .ok (d.norm, written) := by
    simp only [convert, Document.ofJsonText_toJsonText_newline hreadable.valid hfits, hnorm]
  have hkept' : Lines.Kept true written :=
    Document.kept_write hreadable.valid hfits.isEncodable hreadable.tagged.kept hwrite
  have hcontent' : t'.read source' = .ok (encode (d.toJsonText (some 2) ++ [('\n' : Char)])) :=
    hsame.trans hroute.read_target
  refine ⟨?_, ?_, encode written, hroute'.read_target, decode?_encode hkept'⟩
  · exact finishes_of_route hroute (direction?_of_textSuffix hsuffix) hcontent hdecode hcompile
      (Lines.kept_iff_isEncodable.1 hkept.of_back)
  · exact finishes_of_route hroute' (direction?_of_jsonSuffix hsuffix') hcontent'
      (decode?_encode hkept) hdecompile (Lines.kept_iff_isEncodable.1 hkept'.of_back)

/-- The texts that a text is reformatted to, directly and through JSON. -/
def bothWays (s : Settings) (text : List Char) : Option (List Char × List Char) :=
  match Document.ofText s.validateTimeTags text with
  | .error _ => none
  | .ok d =>
    match d.write s.indent, Document.ofJsonText (d.toJsonText (some 2)) with
    | .ok written, .ok d' => (d'.write s.indent).toOption.map (written, ·)
    | _, _ => none

/-- A text can be beyond JSON in three ways. Its metadata may nest deeper than the reader of JSON
goes, a string may hold half of a surrogate pair, which the reader refuses, and its load-and-go flag
may be an infinite number, for which JSON has null. -/
theorem decompile_compile_beyond :
    (∃ d, Document.ofText true (Document.textOfDepth 199) = .ok d ∧
      d.write none = .ok (Document.textOfDepth 199) ∧
      ∀ d', Document.ofJsonText (d.toJsonText (some 2)) ≠ .ok d') ∧
    (∃ d, Document.ofText true Document.escapedHalf = .ok d ∧
      d.write none = .ok Document.writtenHalf ∧
      ∀ d', Document.ofJsonText (d.toJsonText (some 2)) ≠ .ok d') ∧
    bothWays {} (String.toList "@ID \"demo\"\n@METADATA \"lgo\" 1e999\n") =
      some (String.toList "@ID \"demo\"\n\n@LOAD_AND_GO", String.toList "@ID \"demo\"\n") := by
  obtain ⟨d, hd, hwrite, hne⟩ := Document.exists_ofText_escapedHalf
  exact ⟨⟨_, Document.ofText_textOfDepth true 199, Document.write_ofDepth 199,
    Document.ofJsonText_ne_ofDepth (some 2)⟩, ⟨d, hd, hwrite, hne (some 2)⟩, by decide +kernel⟩

/-- Files of texts in the working directory. -/
def filesHere (files : List (String × List Char)) : FileTree :=
  ⟨[], files.map fun (name, text) => ([name.toList], encode text)⟩

/-- The path of a file in the working directory. -/
def pathHere (name : String) : Path :=
  ⟨[], [name.toList]⟩

/-- The conversion of one file in the working directory to another. -/
def optionsHere (input output : String) : Options :=
  ⟨⟨[], []⟩, some ⟨[], []⟩, some input.toList, output.toList, 1⟩

theorem relay_here {text : List Char} (json written : List Char) (h : Lines.Kept true text) :
    Relay (optionsHere "a.seqn" "a.json") (optionsHere "a.json" "b.seqn")
      (filesHere [("a.seqn", text)]) (filesHere [("a.seqn", text), ("a.json", json)])
      (filesHere [("a.seqn", text), ("a.json", json), ("b.seqn", written)])
      (pathHere "a.seqn") (pathHere "a.json") (pathHere "a.json") (pathHere "b.seqn")
      text json written where
  suffix := by decide
  text := ⟨encode text, rfl, decode?_encode h⟩
  compile := ⟨⟨_, rfl, by decide⟩, by decide, rfl, ⟨[], []⟩, .compile, String.toList "a.json", rfl,
    by decide, rfl, by decide, rfl, rfl, by decide, rfl⟩
  jsonSuffix := by decide
  json := rfl
  decompile :=
    ⟨⟨_, rfl, by decide⟩, by decide, rfl, ⟨[], []⟩, .decompile, String.toList "a.seqn", rfl,
    by decide, rfl, by decide, rfl, rfl, by decide, rfl⟩

/-- A text file is compiled, and what comes of it is decompiled to another text file. -/
theorem decompile_compile_dated :
    let s : Settings := {}
    let d := Document.ofTag "2024-001T00:00:00"
    let text := String.toList "@ID \"demo\"\n\nA2024-001T00:00:00 NOOP\n"
    let json := d.toJsonText (some 2) ++ [('\n' : Char)]
    let t := filesHere [("a.seqn", text)]
    let t' := filesHere [("a.seqn", text), ("a.json", json)]
    let t'' := filesHere [("a.seqn", text), ("a.json", json), ("b.seqn", text)]
    Document.ofText s.validateTimeTags text = .ok d ∧ d.write s.indent = .ok text ∧
      d.toJson.Fits .document ∧ d.FiniteFlag ∧
      Relay (optionsHere "a.seqn" "a.json") (optionsHere "a.json" "b.seqn") t t' t''
        (pathHere "a.seqn") (pathHere "a.json") (pathHere "a.json") (pathHere "b.seqn")
        text json text ∧
      Finishes (fun _ => false) s (optionsHere "a.seqn" "a.json") t t' ∧
      Finishes (fun _ => false) s (optionsHere "a.json" "b.seqn") t' t'' := by
  have htags : (Document.ofTag "2024-001T00:00:00").Tagged (TagReadable true) :=
    Document.tagged_ofTag (by decide) fun _ => by decide
  have hwrite : (Document.ofTag "2024-001T00:00:00").write (some 2) = .ok
      (String.toList "@ID \"demo\"\n\nA2024-001T00:00:00 NOOP\n") := rfl
  have hread := Document.ofText_write (Document.valid_ofTag (by decide)) htags hwrite
  have hflag : (Document.ofTag "2024-001T00:00:00").FiniteFlag := by
    intro x h
    simp [Document.ofTag, Dictionary.get?] at h
  have hkept : Lines.Kept true (String.toList "@ID \"demo\"\n\nA2024-001T00:00:00 NOOP\n") := by
    decide
  have hrelay :=
    relay_here ((Document.ofTag "2024-001T00:00:00").toJsonText (some 2) ++ [('\n' : Char)])
    (String.toList "@ID \"demo\"\n\nA2024-001T00:00:00 NOOP\n") hkept
  have hdumps : Dumps fun _ => false := fun _ _ => rfl
  have hdone := (decompile_compile (s := {}) hdumps hread hwrite (Document.fits_ofTag rfl) hflag).2
    _ _ _ _ _ _ _ _ _ hrelay
  exact ⟨hread, hwrite, Document.fits_ofTag rfl, hflag, hrelay, hdone.1, hdone.2.1⟩

end CommandLine

end CommandSequence
