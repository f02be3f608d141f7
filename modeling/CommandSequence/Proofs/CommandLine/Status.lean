import CommandSequence.Proofs.CommandLine.Detour
import CommandSequence.Proofs.CommandLine.Run
import CommandSequence.Proofs.Document.Writable

/-!
# How a conversion ends

If the input file is there and its output has somewhere to go (`Ready`), a conversion ends with exit
status 0 or 1 unless it comes upon one of six things (`Unforeseen`), and then it has no exit status
(`status_runOn`). Three are in what the file holds: bytes that are not UTF-8, and integers too long
to be read or written. One is in the name of the file. The other two come up when a document is put
into JSON: the library that dumps documents may refuse it, as it refuses metadata that nests too
deep, and a string that is dumped may hold half of a surrogate pair, for which UTF-8 has no bytes.
-/

namespace CommandSequence

namespace CommandLine

variable {refuses : Document → Bool} {s : Settings} {o : Options} {t : FileTree}
  {direction : Direction} {source : Path} {content : ByteArray}

/-- What no part of a conversion is prepared for: bytes that are not UTF-8; sequence text that holds
an integer too long to be read, or whose document the library refuses to dump, or dumps with half of
a surrogate pair in a string; JSON whose document holds an integer too long to be written; and JSON
in a file whose name has a single point before the suffix. -/
inductive Unforeseen (refuses : Document → Bool) (s : Settings) (name : List Char)
    (content : ByteArray) : Direction → Prop where
  | encoding {direction : Direction} (h : decode? content = none) :
    Unforeseen refuses s name content direction
  | longLiteral {text : List Char} {position : Option Source.Position}
    (hdecode : decode? content = some text)
    (h : Document.ofText s.validateTimeTags text = .error (.fault ⟨.integerTooLong, position⟩)) :
    Unforeseen refuses s name content .compile
  | undumped {text : List Char} {d : Document} (hdecode : decode? content = some text)
    (hread : Document.ofText s.validateTimeTags text = .ok d) (h : refuses d = true) :
    Unforeseen refuses s name content .compile
  | unencodable {text : List Char} {d : Document} (hdecode : decode? content = some text)
    (hread : Document.ofText s.validateTimeTags text = .ok d)
    (h : d.dumped.toJson.isEncodable = false) : Unforeseen refuses s name content .compile
  | longInteger {text : List Char} {d : Document} {e : WriteError}
    (hdecode : decode? content = some text) (hread : Document.ofJsonText text = .ok d)
    (hwrite : d.write s.indent = .error e) (he : ¬e.IsWorded) :
    Unforeseen refuses s name content .decompile
  | name (h : Path.stem name = [('.' : Char)]) : Unforeseen refuses s name content .decompile

/-- The input of a conversion is there, its suffix is known, and the output can be written to its
place, whatever it holds. -/
structure Ready (o : Options) (t : FileTree) (source : Path) (direction : Direction)
    (content : ByteArray) : Prop where
  input : ∃ file, o.inputFile = some file ∧ source = o.inputDirectory.join (.ofText file)
  possible : source.isPossible = true
  read : t.read source = .ok content
  known : direction? (lowerSuffix source.name) = some direction
  output : ∃ directory, o.outputDirectory = some directory ∧ directory.isPossible = true ∧
    (t.makeDirectories directory).2 = none ∧ ∀ name, defaultName direction source.name = .ok name →
      (outputPath o directory name).isPossible = true ∧ ∀ bytes, ∃ t',
        (t.makeDirectories directory).1.write (outputPath o directory name) bytes = .ok t'

/-- A file that can be read is there. -/
theorem present_of_read {p : Path} (h : t.read p = .ok content) : t.present p = .ok true := by
  obtain ⟨l, hl, h⟩ := bind_eq_ok.1 h
  have hnode : (t.node? l).isSome = true := by
    cases hnode : t.node? l with
    | none => rw [hnode] at h; cases h
    | some node => rfl
  simp only [FileTree.present, hl, hnode]

/-- A text that cannot be read ends a conversion with an exit status, unless an integer is too
long. -/
theorem status?_ofTextError (text : List Char) (e : TextError) :
    (ofTextError text e).status? = none ↔ ∃ position, e = .fault ⟨.integerTooLong, position⟩ := by
  unfold ofTextError
  split
  · exact iff_of_false (by rintro ⟨_, ⟨⟩, _⟩) (by rintro ⟨_, ⟨⟩⟩)
  · exact iff_of_true rfl ⟨_, rfl⟩
  · next f hcause =>
    refine iff_of_false nofun ?_
    rintro ⟨position, h⟩
    cases h
    exact hcause position rfl

theorem status?_ofWriteError (e : WriteError) : (ofWriteError e).status? = none ↔ ¬e.IsWorded := by
  unfold ofWriteError WriteError.IsWorded
  cases e.message? with
  | some message => exact iff_of_false nofun (by simp)
  | none => exact iff_of_true rfl (by simp)

/-- Whatever JSON gives no document for is reported as a record that does not fit. -/
theorem fault_of_ofJsonText {text : List Char} {f : Fault}
    (h : Document.ofJsonText text = .error f) : ∃ issues, f = Document.fault issues := by
  unfold Document.ofJsonText at h
  split at h
  · split at h
    · unfold Document.ofJson at h
      split at h
      · cases h
      · cases h
        exact ⟨_, rfl⟩
    · cases h
      exact ⟨_, rfl⟩
  · cases h
    exact ⟨_, rfl⟩

/-- Sequence text that can be decoded is unforeseen for a long integer or for its document. -/
theorem unforeseen_compile {text name : List Char} (hdecode : decode? content = some text) :
    Unforeseen refuses s name content .compile ↔
      (∃ position, Document.ofText s.validateTimeTags text =
        .error (.fault ⟨.integerTooLong, position⟩)) ∨
      ∃ d, Document.ofText s.validateTimeTags text = .ok d ∧
        (refuses d = true ∨ d.dumped.toJson.isEncodable = false) := by
  constructor
  · rintro (hnone | ⟨hdecode', h⟩ | ⟨hdecode', hread, h⟩ | ⟨hdecode', hread, h⟩)
    · rw [hdecode] at hnone
      cases hnone
    all_goals cases hdecode'.symm.trans hdecode
    · exact .inl ⟨_, h⟩
    · exact .inr ⟨_, hread, .inl h⟩
    · exact .inr ⟨_, hread, .inr h⟩
  · rintro (⟨position, h⟩ | ⟨d, hread, h | h⟩)
    · exact .longLiteral hdecode h
    · exact .undumped hdecode hread h
    · exact .unencodable hdecode hread h

/-- JSON that can be decoded, in a file whose name leaves a name for the output, is unforeseen only
for a long integer. -/
theorem unforeseen_decompile {text name : List Char} (hdecode : decode? content = some text)
    (hname : Path.stem name ≠ [('.' : Char)]) :
    Unforeseen refuses s name content .decompile ↔ ∃ d e,
      Document.ofJsonText text = .ok d ∧ d.write s.indent = .error e ∧ ¬e.IsWorded := by
  constructor
  · rintro (hnone | - | - | - | ⟨hdecode', hread, hwrite, he⟩ | hstem)
    · rw [hdecode] at hnone
      cases hnone
    · cases hdecode'.symm.trans hdecode
      exact ⟨_, _, hread, hwrite, he⟩
    · exact absurd hstem hname
  · rintro ⟨d, e, hread, hwrite, he⟩
    exact .longInteger hdecode hread hwrite he

/-- A conversion of a text comes to no exit status: it fails without one, or UTF-8 has no bytes for
its output. -/
def Stuck (result : Except Ending (Document × List Char)) : Prop :=
  (∃ ending, result = .error ending ∧ ending.status? = none) ∨
    ∃ d output, result = .ok (d, output) ∧ encode? output = none

@[simp]
theorem stuck_error {ending : Ending} : Stuck (.error ending) ↔ ending.status? = none := by
  simp [Stuck]

@[simp]
theorem stuck_ok {d : Document} {output : List Char} :
    Stuck (.ok (d, output)) ↔ encode? output = none := by
  simp [Stuck]

/-- The JSON of a document has no bytes in UTF-8 exactly if a string that is dumped has none. -/
theorem encode?_toJsonText {d : Document} (h : d.Valid) :
    encode? (d.toJsonText (some 2) ++ [('\n' : Char)]) = none ↔
    d.dumped.toJson.isEncodable = false := by
  have hend : Lines.Kept false [('\n' : Char)] := by decide
  rw [encode?_eq_none_iff, ← Bool.not_eq_true, ← Bool.not_eq_true, ← Lines.kept_iff_isEncodable,
    Lines.kept_append, Document.kept_toJsonText h, and_iff_left hend]

/-- What JSON is converted to has bytes in UTF-8, for the reader of JSON lets no half in. -/
theorem encode?_write {d : Document} {json written : List Char}
    (hread : Document.ofJsonText json = .ok d) (hwrite : d.write s.indent = .ok written) :
    encode? written ≠ none := by
  obtain ⟨hvalid, hfits⟩ := Document.keeps_of_ofJsonText hread
  have hkept := Document.kept_write hvalid hfits.isEncodable d.tagged_takes hwrite
  rw [encode?_eq_some (Lines.kept_iff_isEncodable.1 hkept)]
  exact nofun

theorem stuck_compile (text : List Char) :
    Stuck (convert refuses s .compile text).result ↔
      (∃ position, Document.ofText s.validateTimeTags text =
        .error (.fault ⟨.integerTooLong, position⟩)) ∨
      ∃ d, Document.ofText s.validateTimeTags text = .ok d ∧
        (refuses d = true ∨ d.dumped.toJson.isEncodable = false) := by
  simp only [convert]
  cases hread : Document.ofText s.validateTimeTags text with
  | error e => simp [status?_ofTextError]
  | ok d =>
    have hjson := encode?_toJsonText (Document.readable_of_ofText hread).valid
    cases hrefused : refuses d with
    | true => simp [Ending.status?, hrefused]
    | false => simp [hjson, hrefused]

theorem stuck_decompile (text : List Char) :
    Stuck (convert refuses s .decompile text).result ↔
      ∃ d e, Document.ofJsonText text = .ok d ∧ d.write s.indent = .error e ∧ ¬e.IsWorded := by
  simp only [convert]
  cases hread : Document.ofJsonText text with
  | error f =>
    obtain ⟨issues, rfl⟩ := fault_of_ofJsonText hread
    simp [status?_ofTextError, Document.fault]
  | ok d =>
    cases hwrite : d.write s.indent with
    | ok written => simp [hwrite, encode?_write hread hwrite]
    | error e => simp [hwrite, status?_ofWriteError]

/-- The conversion of a text comes to no exit status exactly if something in it is unforeseen. -/
theorem stuck_convert {text : List Char} (name : List Char)
    (hname : direction = .decompile → Path.stem name ≠ [('.' : Char)])
    (hdecode : decode? content = some text) :
    Stuck (convert refuses s direction text).result ↔
      Unforeseen refuses s name content direction := by
  cases direction with
  | compile => rw [stuck_compile, unforeseen_compile hdecode]
  | decompile => rw [stuck_decompile, unforeseen_decompile hdecode (hname rfl)]

/-- The status of a conversion whose source is read and whose target can be written. -/
theorem leads_status {target : Path} (hread : t.read source = .ok content)
    (htarget : target.isPossible = true) (hwritable : ∀ bytes, ∃ t', t.write target bytes = .ok t')
    (hname : direction = .decompile → Path.stem source.name ≠ [('.' : Char)]) :
    Leads (process treeSystem refuses s o direction source target) t fun ending _ =>
      ending.status? = none ↔ Unforeseen refuses s source.name content direction := by
  unfold process
  refine .report (.read ?_)
  rw [hread]
  dsimp only
  cases hdecode : decode? content with
  | none => exact .pure (iff_of_true rfl (.encoding hdecode))
  | some text =>
    rw [← stuck_convert source.name hname hdecode]
    refine .report (.report ?_)
    cases (convert refuses s direction text).result with
    | error ending => exact .pure stuck_error.symm
    | ok converted =>
      obtain ⟨d, output⟩ := converted
      dsimp only
      rw [stuck_ok]
      unfold finish
      rw [if_pos htarget]
      refine .write (fun t' _ => ?_) fun e he => ?_
      · cases hencode : encode? output with
        | none => exact .pure (iff_of_true rfl rfl)
        | some bytes => exact .report (.pure (iff_of_false nofun nofun))
      · obtain ⟨t', hwrite⟩ := hwritable (encode output)
        rw [hwrite] at he
        cases he

/-- The name of the output is missing exactly if there is a single point before the suffix
`.json`. -/
theorem defaultName_cases (direction : Direction) (name : List Char) :
    (∃ output, defaultName direction name = .ok output ∧
      (direction = .decompile → Path.stem name ≠ [('.' : Char)])) ∨
    (defaultName direction name = .error .noOutputName ∧ direction = .decompile ∧
      Path.stem name = [('.' : Char)]) := by
  cases direction with
  | compile => exact .inl ⟨_, rfl, nofun⟩
  | decompile =>
    by_cases hstem : Path.stem name = [('.' : Char)]
    · exact .inr ⟨if_pos hstem, rfl, hstem⟩
    · exact .inl ⟨_, if_neg hstem, fun _ => hstem⟩

/-- If its input is there and its output can be written, a conversion ends with exit status 0 or 1,
whatever the input holds, unless it comes upon what it is not prepared for; then it ends with
none. -/
theorem status_runOn (refuses : Document → Bool) (h : Ready o t source direction content) :
    ((runOn refuses s o t).1.status? = some 0 ∨ (runOn refuses s o t).1.status? = some 1) ↔
      ¬Unforeseen refuses s source.name content direction := by
  obtain ⟨⟨file, hfile, hsource⟩, hpossible, hread, hknown, directory, houtput, hdirectory, hmade,
    htarget⟩ := h
  have hpresent := present_of_read hread
  have hgrows := (t.made_makeDirectories directory).grows
  have hrun : Leads (run treeSystem refuses s o) t fun ending _ =>
      ending.status? = none ↔ Unforeseen refuses s source.name content direction := by
    unfold run
    refine .report ?_
    rw [hfile]
    refine .look ?_
    rw [← hsource, if_pos hpossible, hpresent]
    dsimp only
    unfold direct
    refine .report ?_
    dsimp only
    rw [hknown]
    dsimp only
    rcases defaultName_cases direction source.name with ⟨name, hname, hstem⟩ | ⟨hname, rfl, hstem⟩
    · obtain ⟨hplace, hwritable⟩ := htarget name hname
      rw [hname]
      dsimp only
      unfold prepare
      rw [houtput]
      dsimp only
      rw [if_pos hdirectory]
      refine .makeDirectories ?_
      rw [hmade]
      refine .report (leads_status ?_ hplace hwritable hstem)
      rw [hgrows.read hpresent, hread]
    · rw [hname]
      exact .pure (iff_of_true rfl (.name hstem))
  have hstatus : (runOn refuses s o t).1.status? = none ↔
      Unforeseen refuses s source.name content direction := hrun []
  rw [← hstatus]
  cases (runOn refuses s o t).1 <;> simp [Ending.status?]

/-- A conversion in the working directory is ready, whatever its file holds. -/
theorem ready_here (content : ByteArray) :
    Ready (optionsHere "a.seqn" "a.json") ⟨[], [([String.toList "a.seqn"], content)]⟩
      (pathHere "a.seqn") .compile content where
  input := ⟨_, rfl, by decide⟩
  possible := by decide
  read := rfl
  known := by decide
  output := ⟨⟨[], []⟩, rfl, by decide, rfl, fun _ _ => ⟨rfl, fun _ => ⟨_, rfl⟩⟩⟩

/-- A text that departs from the grammar ends a conversion with status 1. -/
theorem status_runOn_ungrammatical :
    let t : FileTree := ⟨[], [([String.toList "a.seqn"], encode (String.toList "C\n"))]⟩
    Ready (optionsHere "a.seqn" "a.json") t (pathHere "a.seqn") .compile
        (encode (String.toList "C\n")) ∧
      ((runOn (fun _ => false) {} (optionsHere "a.seqn" "a.json") t).1.status? = some 0 ∨
        (runOn (fun _ => false) {} (optionsHere "a.seqn" "a.json") t).1.status? = some 1) := by
  intro t
  have hdecode : decode? (encode (String.toList "C\n")) = some (String.toList "C\n") :=
    decode?_encode (by decide)
  obtain ⟨e, he⟩ : ∃ e, Document.ofText true (String.toList "C\n") = .error (.grammar e) := ⟨_, rfl⟩
  refine ⟨ready_here _, (status_runOn _ (ready_here _)).2 ?_⟩
  rw [unforeseen_compile hdecode]
  rintro (⟨position, h⟩ | ⟨d, h, -⟩)
  all_goals cases he.symm.trans h

/-- A file that is not UTF-8 ends a conversion without an exit status. -/
theorem status_runOn_undecodable :
    let content : ByteArray := ⟨#[0xFF]⟩
    let t : FileTree := ⟨[], [([String.toList "a.seqn"], content)]⟩
    Ready (optionsHere "a.seqn" "a.json") t (pathHere "a.seqn") .compile content ∧
      (runOn (fun _ => false) {} (optionsHere "a.seqn" "a.json") t).1.status? ≠ some 0 ∧
      (runOn (fun _ => false) {} (optionsHere "a.seqn" "a.json") t).1.status? ≠ some 1 := by
  intro content t
  have hstatus : (runOn (fun _ => false) {} (optionsHere "a.seqn" "a.json") t).1.status? =
      none := by
    decide +kernel
  refine ⟨ready_here content, ?_⟩
  rw [hstatus]
  exact ⟨nofun, nofun⟩

end CommandLine

end CommandSequence
