import CommandSequence.CommandLine.Run
import CommandSequence.Proofs.Files.Tree
import CommandSequence.Proofs.Text.Lines

/-!
# The effect of a conversion on the files

A conversion over a file tree changes one file if it finishes, and none otherwise, unless its output
holds half of a surrogate pair: the file is then emptied before that is noticed. `Leads` says of a
computation what it ends with and which tree it leaves, whatever notes are taken; each stage of a
conversion has one lemma of that form. The output directory is made before the input is read, which
is of no consequence: the input is there already, and so it stays as it is.
-/

namespace CommandSequence

namespace CommandLine

variable {refuses : Document → Bool} {s : Settings} {o : Options} {t t' : FileTree}
  {direction : Direction} {source target directory : Path} {name file : List Char}
  {P : Ending → FileTree → Prop}

/-! ## Texts in UTF-8 -/

theorem toLiteral?_map (scalars : List Scalar) :
    (String.ofList (scalars.map .scalar)).toLiteral? = some (Literal.ofList scalars) := by
  have hmap : (scalars.map Char.scalar).mapM Char.scalar? = some scalars := by
    induction scalars with
    | nil => rfl
    | cons c scalars ih => simp [List.mapM_cons, Char.scalar?, ih]
  rw [String.toLiteral?, String.toList_ofList, hmap, Option.map_some]

/-- A text without halves of surrogate pairs is one of scalar values. -/
theorem exists_scalars {text : List Char} (h : (String.ofList text).isEncodable = true) :
    ∃ scalars : List Scalar, text = scalars.map .scalar := by
  induction text with
  | nil => exact ⟨[], rfl⟩
  | cons c text ih =>
    obtain ⟨hc, htext⟩ := Bool.and_eq_true_iff.1 h
    obtain ⟨scalars, rfl⟩ := ih htext
    cases c with
    | scalar c => exact ⟨c :: scalars, rfl⟩
    | half index => cases hc

/-- UTF-8 has bytes for a text without halves of surrogate pairs. -/
theorem encode?_eq_some {text : List Char} (h : (String.ofList text).isEncodable = true) :
    encode? text = some (encode text) := by
  obtain ⟨scalars, rfl⟩ := exists_scalars h
  rw [encode, encode?, toLiteral?_map]
  rfl

/-- UTF-8 has bytes for a text exactly if it holds no half of a surrogate pair. -/
theorem encode?_eq_none_iff {text : List Char} :
    encode? text = none ↔ (String.ofList text).isEncodable = false := by
  constructor
  · intro h
    rw [← Bool.not_eq_true]
    intro hencodable
    rw [encode?_eq_some hencodable] at h
    cases h
  · intro h
    have hnone : text.mapM Char.scalar? = none := by
      induction text with
      | nil => cases h
      | cons c text ih =>
        cases c with
        | half index => simp [List.mapM_cons, Char.scalar?]
        | scalar c => simp [List.mapM_cons, Char.scalar?, ih h]
    rw [encode?, String.toLiteral?, String.toList_ofList, hnone]
    rfl

/-- A text that a file gives back is read as it was written. -/
theorem decode?_encode {text : List Char} (h : Lines.Kept true text) :
    decode? (encode text) = some text := by
  obtain ⟨scalars, rfl⟩ := exists_scalars (Lines.kept_iff_isEncodable.1 h.of_back)
  have hencode : encode (scalars.map .scalar) = (Literal.ofList scalars).toUTF8 := by
    rw [encode, encode?, toLiteral?_map]
    rfl
  have hutf8 : String.fromUTF8? (Literal.ofList scalars).toUTF8 = some (Literal.ofList scalars) :=
    dif_pos (Literal.ofList scalars).isValidUTF8
  have htext : (String.literal (Literal.ofList scalars)).toList = scalars.map .scalar := by
    rw [String.toList_literal, Literal.toList_ofList]
  rw [decode?, hencode, hutf8, Option.map_some, htext, Lines.universal_eq h]

/-! ## What a computation leads to -/

/-- From a tree, the computation ends in a way and leaves a tree as demanded. -/
def Leads (x : StateM Session Ending) (t : FileTree) (P : Ending → FileTree → Prop) : Prop :=
  ∀ notes, P (x ⟨t, notes⟩).1 (x ⟨t, notes⟩).2.tree

theorem tree_report (verbosity : Nat) (notes : List Note) (session : Session) :
    (report treeSystem verbosity notes session).2.tree = session.tree := by
  induction notes generalizing session with
  | nil => rfl
  | cons n notes ih =>
    unfold report
    split
    · exact ih _
    · exact ih _

namespace Leads

variable {ending : Ending} {verbosity : Nat} {notes : List Note} {p : Path} {content : ByteArray}

theorem pure (h : P ending t) : Leads (Pure.pure ending) t P :=
  fun _ => h

theorem report {k : StateM Session Ending} (h : Leads k t P) :
    Leads (do CommandLine.report treeSystem verbosity notes; k) t P := by
  intro taken
  have htree := tree_report verbosity notes ⟨t, taken⟩
  change P (k (CommandLine.report treeSystem verbosity notes ⟨t, taken⟩).2).1
    (k (CommandLine.report treeSystem verbosity notes ⟨t, taken⟩).2).2.tree
  generalize (CommandLine.report treeSystem verbosity notes ⟨t, taken⟩).2 = session at htree ⊢
  obtain ⟨tree, taken⟩ := session
  subst htree
  exact h taken

theorem look {k : Except FileError Bool → StateM Session Ending}
    (h : Leads (k (if p.isPossible then t.present p else .ok false)) t P) :
    Leads (CommandLine.look treeSystem p >>= k) t P := by
  unfold CommandLine.look
  split
  · next hpossible =>
    rw [if_pos hpossible] at h
    exact h
  · next hpossible =>
    rw [if_neg hpossible] at h
    exact h

theorem read {k : Except FileError ByteArray → StateM Session Ending}
    (h : Leads (k (t.read p)) t P) : Leads (treeSystem.read p >>= k) t P :=
  h

theorem makeDirectories {k : Option FileError → StateM Session Ending}
    (h : Leads (k (t.makeDirectories p).2) (t.makeDirectories p).1 P) :
    Leads (treeSystem.makeDirectories p >>= k) t P :=
  h

theorem write {k : Option FileError → StateM Session Ending}
    (hok : ∀ t', t.write p content = .ok t' → Leads (k none) t' P)
    (herror : ∀ e, t.write p content = .error e → Leads (k (some e)) t P) :
    Leads (treeSystem.write p content >>= k) t P := by
  intro taken
  change P (k (treeSystem.write p content ⟨t, taken⟩).1 (treeSystem.write p content ⟨t, taken⟩).2).1
    (k (treeSystem.write p content ⟨t, taken⟩).1 (treeSystem.write p content ⟨t, taken⟩).2).2.tree
  cases hwrite : t.write p content with
  | ok t' =>
    have hsystem : treeSystem.write p content ⟨t, taken⟩ = (none, ⟨t', taken⟩) := by
      simp only [treeSystem, hwrite]
    rw [hsystem]
    exact hok t' hwrite taken
  | error e =>
    have hsystem : treeSystem.write p content ⟨t, taken⟩ = (some e, ⟨t, taken⟩) := by
      simp only [treeSystem, hwrite]
    rw [hsystem]
    exact herror e hwrite taken

end Leads

/-! ## The stages -/

/-- An ending that comes before the target is opened. -/
def IsEarly (ending : Ending) : Prop :=
  ending ≠ .finished ∧ ending ≠ .failed .unencodable

/-- An error in a text ends a conversion before the target is opened. -/
theorem isEarly_ofTextError (text : List Char) (e : TextError) : IsEarly (ofTextError text e) := by
  unfold ofTextError
  split <;> exact ⟨nofun, nofun⟩

theorem isEarly_ofWriteError (e : WriteError) : IsEarly (ofWriteError e) := by
  unfold ofWriteError
  split <;> exact ⟨nofun, nofun⟩

/-- What a text is converted to, as the suffix of its file decides. -/
def Output (s : Settings) (suffix text output : List Char) : Prop :=
  (suffix ∈ textSuffixes ∧ ∃ d, Document.ofText s.validateTimeTags text = .ok d ∧
    output = d.toJsonText (some 2) ++ [('\n' : Char)]) ∨
  (suffix ∈ jsonSuffixes ∧ ∃ d, Document.ofJsonText text = .ok d ∧ d.write s.indent = .ok output)

theorem direction?_eq_some {suffix : List Char} (h : direction? suffix = some direction) :
    (direction = .compile ∧ suffix ∈ textSuffixes) ∨
      (direction = .decompile ∧ suffix ∈ jsonSuffixes) := by
  unfold direction? at h
  split at h
  · next htext =>
    cases h
    exact .inl ⟨rfl, List.contains_iff_mem.1 htext⟩
  · split at h
    · next hjson =>
      cases h
      exact .inr ⟨rfl, List.contains_iff_mem.1 hjson⟩
    · cases h

/-- What the conversion of a text gives. -/
theorem output_of_convert {suffix text output : List Char} {d : Document}
    (hdirection : direction? suffix = some direction)
    (h : (convert refuses s direction text).result = .ok (d, output)) :
    Output s suffix text output := by
  rcases direction?_eq_some hdirection with ⟨rfl, hsuffix⟩ | ⟨rfl, hsuffix⟩
  · simp only [convert] at h
    split at h
    · cases h
    · next d' hread =>
      split at h
      · cases h
      · cases h
        exact .inl ⟨hsuffix, d, hread, rfl⟩
  · simp only [convert] at h
    split at h
    · cases h
    · next d' hread =>
      dsimp only at h
      split at h
      · cases h
      · next written hwrite =>
        cases h
        exact .inr ⟨hsuffix, d, hread, hwrite⟩

theorem isEarly_of_convert {text : List Char} {ending : Ending}
    (h : (convert refuses s direction text).result = .error ending) : IsEarly ending := by
  cases direction with
  | compile =>
    simp only [convert] at h
    split at h
    · cases h
      exact isEarly_ofTextError _ _
    · split at h
      · cases h
        exact ⟨nofun, nofun⟩
      · cases h
  | decompile =>
    simp only [convert] at h
    split at h
    · cases h
      exact isEarly_ofTextError _ _
    · dsimp only at h
      split at h
      · cases h
        exact isEarly_ofWriteError _
      · cases h

theorem leads_finish {d : Document} {output : List Char}
    (hfail : ∀ ending, IsEarly ending → P ending t)
    (hdone : ∀ bytes t', encode? output = some bytes → t.write target bytes = .ok t' →
      P .finished t')
    (hhalf : ∀ t', encode? output = none → t.write target ByteArray.empty = .ok t' →
      P (.failed .unencodable) t') :
    Leads (finish treeSystem o target d output) t P := by
  unfold finish
  split
  · refine .write (fun t' hwrite => ?_) fun e _ => .pure (hfail _ ⟨nofun, nofun⟩)
    cases hencode : encode? output with
    | none =>
      rw [encode, hencode] at hwrite
      exact .pure (hhalf t' hencode hwrite)
    | some bytes =>
      rw [encode, hencode] at hwrite
      exact .report (.pure (hdone bytes t' hencode hwrite))
  · exact .pure (hfail _ ⟨nofun, nofun⟩)

/-- The source reads as a text that is converted to an output. -/
def Outputs (refuses : Document → Bool) (s : Settings) (direction : Direction) (t : FileTree)
    (source : Path) (output : List Char) : Prop :=
  ∃ content text d, t.read source = .ok content ∧ decode? content = some text ∧
    (convert refuses s direction text).result = .ok (d, output)

theorem leads_process (hfail : ∀ ending, IsEarly ending → P ending t)
    (hdone : ∀ output bytes t', Outputs refuses s direction t source output →
      encode? output = some bytes → t.write target bytes = .ok t' → P .finished t')
    (hhalf : ∀ output t', Outputs refuses s direction t source output →
      encode? output = none → t.write target ByteArray.empty = .ok t' →
      P (.failed .unencodable) t') :
    Leads (process treeSystem refuses s o direction source target) t P := by
  unfold process
  refine .report (.read ?_)
  cases hread : t.read source with
  | error e => exact .pure (hfail _ ⟨nofun, nofun⟩)
  | ok content =>
    dsimp only
    cases hdecode : decode? content with
    | none => exact .pure (hfail _ ⟨nofun, nofun⟩)
    | some text =>
      refine .report (.report ?_)
      cases hresult : (convert refuses s direction text).result with
      | error ending => exact .pure (hfail _ (isEarly_of_convert hresult))
      | ok converted =>
        obtain ⟨d, output⟩ := converted
        have houtputs : Outputs refuses s direction t source output :=
          ⟨content, text, d, hread, hdecode, hresult⟩
        exact leads_finish hfail (fun bytes t' => hdone output bytes t' houtputs)
          fun t' => hhalf output t' houtputs

/-! ## The whole conversion -/

/-- The output of a source goes to a target: into the output directory, under the name that options
give it or else under the default name. -/
def Targets (o : Options) (source target : Path) : Prop :=
  ∃ directory direction name, o.outputDirectory = some directory ∧
    direction? (lowerSuffix source.name) = some direction ∧
    defaultName direction source.name = .ok name ∧ target = outputPath o directory name

/-- The second tree is the first one with bytes in place of the output of a conversion. -/
def Converted (s : Settings) (o : Options) (t t' : FileTree) (output : List Char)
    (bytes : ByteArray) : Prop :=
  ∃ file source target content text,
    o.inputFile = some file ∧ source = o.inputDirectory.join (.ofText file) ∧
    Targets o source target ∧ t.read source = .ok content ∧ decode? content = some text ∧
    Output s (lowerSuffix source.name) text output ∧ t'.read target = .ok bytes ∧
    ∀ l, t'.locate target ≠ .ok l → t'.content? l = t.content? l

/-- What a conversion does to the files: if it finishes, it has put its output in its place, in
UTF-8, and changed no other file. If UTF-8 has no bytes for the output, it has emptied that file
alone; and otherwise it has changed none. Directories are made on the way to the output directory
only. -/
structure Effect (s : Settings) (o : Options) (t : FileTree) (ending : Ending) (t' : FileTree) :
    Prop where
  finished : ending = .finished → ∃ output bytes, encode? output = some bytes ∧
    Converted s o t t' output bytes
  emptied : ending = .failed .unencodable → ∃ output, encode? output = none ∧
    Converted s o t t' output ByteArray.empty
  unfinished : ending ≠ .finished → ending ≠ .failed .unencodable →
    ∀ l, t'.content? l = t.content? l
  directories : ∀ l ∈ t'.directories, l ∈ t.directories ∨ ∃ directory count,
    o.outputDirectory = some directory ∧
      t'.locate { directory with names := directory.names.take count } = .ok l

/-- A conversion that fails before it makes directories changes nothing. -/
theorem Effect.of_early {ending : Ending} (h : IsEarly ending) : Effect s o t ending t :=
  ⟨fun hfinished => absurd hfinished h.1, fun hhalf => absurd hhalf h.2, fun _ _ _ => rfl,
    fun _ hl => .inl hl⟩

/-- The directories that were made stay on the way to the output directory if a file is written. -/
theorem onTheWay_of_write {t₁ : FileTree} {bytes : ByteArray} (hmade : t.Made directory t₁)
    (houtput : o.outputDirectory = some directory) (hwrite : t₁.write target bytes = .ok t')
    {l : Location} (hl : l ∈ t'.directories) :
    l ∈ t.directories ∨ ∃ directory count, o.outputDirectory = some directory ∧
      t'.locate { directory with names := directory.names.take count } = .ok l := by
  rw [FileTree.directories_write hwrite] at hl
  refine (hmade.directories l hl).imp_right fun ⟨count, hlocate⟩ => ?_
  exact ⟨directory, count, houtput, FileTree.locate_write hwrite hlocate⟩

/-- A conversion that fails after it made directories changes no file. -/
theorem Effect.of_made {ending : Ending} (houtput : o.outputDirectory = some directory)
    (hmade : t.Made directory t') (h : IsEarly ending) : Effect s o t ending t' :=
  ⟨fun hfinished => absurd hfinished h.1, fun hhalf => absurd hhalf h.2,
    fun _ _ => hmade.grows.content?, fun l hl =>
    (hmade.directories l hl).imp_right fun ⟨count, hlocate⟩ => ⟨directory, count, houtput, hlocate⟩⟩

theorem leads_prepare (hinput : o.inputFile = some file)
    (hsource : source = o.inputDirectory.join (.ofText file))
    (hpresent : t.present source = .ok true)
    (hdirection : direction? (lowerSuffix source.name) = some direction)
    (hname : defaultName direction source.name = .ok name) :
    Leads (prepare treeSystem refuses s o direction source name) t (Effect s o t) := by
  unfold prepare
  cases houtput : o.outputDirectory with
  | none => exact .pure (.of_early ⟨nofun, nofun⟩)
  | some directory =>
    dsimp only
    split
    · refine .makeDirectories ?_
      have hmade := t.made_makeDirectories directory
      cases hrefused : (t.makeDirectories directory).2 with
      | some e => exact .pure (.of_made houtput hmade ⟨nofun, nofun⟩)
      | none =>
        have hconverted : ∀ output bytes t',
            Outputs refuses s direction (t.makeDirectories directory).1 source output →
            (t.makeDirectories directory).1.write (outputPath o directory name) bytes = .ok t' →
            Converted s o t t' output bytes := by
          rintro output bytes t' ⟨content, text, d, hread, hdecode, hconvert⟩ hwrite
          rw [hmade.grows.read hpresent] at hread
          refine ⟨file, source, _, content, text, hinput, hsource,
            ⟨directory, direction, name, houtput, hdirection, hname, rfl⟩, hread, hdecode,
            output_of_convert hdirection hconvert, FileTree.read_write hwrite, fun l hother => ?_⟩
          rw [FileTree.content?_write hwrite hother, hmade.grows.content?]
        refine .report (leads_process (fun _ => .of_made houtput hmade) ?_ ?_)
        · intro output bytes t' houtputs hencode hwrite
          exact ⟨fun _ => ⟨output, bytes, hencode, hconverted output bytes t' houtputs hwrite⟩,
            nofun, fun h => absurd rfl h, fun _ => onTheWay_of_write hmade houtput hwrite⟩
        · intro output t' houtputs hencode hwrite
          exact ⟨nofun, fun _ => ⟨output, hencode, hconverted output _ t' houtputs hwrite⟩,
            fun _ h => absurd rfl h, fun _ => onTheWay_of_write hmade houtput hwrite⟩
    · exact .pure (.of_early ⟨nofun, nofun⟩)

theorem eq_noOutputName_of_defaultName {cause : Failure}
    (h : defaultName direction name = .error cause) : cause = .noOutputName := by
  cases direction with
  | compile => cases h
  | decompile =>
    unfold defaultName at h
    dsimp only at h
    split at h
    · exact (Except.error.inj h).symm
    · cases h

theorem leads_direct (hinput : o.inputFile = some file)
    (hsource : source = o.inputDirectory.join (.ofText file))
    (hpresent : t.present source = .ok true) :
    Leads (direct treeSystem refuses s o source) t (Effect s o t) := by
  unfold direct
  refine .report ?_
  dsimp only
  cases hdirection : direction? (lowerSuffix source.name) with
  | none => exact .pure (.of_early ⟨nofun, nofun⟩)
  | some direction =>
    dsimp only
    cases hname : defaultName direction source.name with
    | error cause =>
      cases eq_noOutputName_of_defaultName hname
      exact .pure (.of_early ⟨nofun, nofun⟩)
    | ok name => exact leads_prepare hinput hsource hpresent hdirection hname

theorem leads_run (refuses : Document → Bool) (s : Settings) (o : Options) (t : FileTree) :
    Leads (run treeSystem refuses s o) t (Effect s o t) := by
  unfold run
  refine .report ?_
  cases hinput : o.inputFile with
  | none => exact .pure (.of_early ⟨nofun, nofun⟩)
  | some file =>
    refine .look ?_
    split
    · exact .pure (.of_early ⟨nofun, nofun⟩)
    · next hpresent =>
      refine leads_direct hinput rfl ?_
      split at hpresent
      · exact hpresent
      · cases hpresent
    · exact .pure (.of_early ⟨nofun, nofun⟩)

/-- A conversion over a file tree changes the file of its output if it finishes, and otherwise no
file at all, unless UTF-8 has no bytes for the output: that file is then empty. -/
theorem effect_runOn (refuses : Document → Bool) (s : Settings) (o : Options) (t : FileTree) :
    Effect s o t (runOn refuses s o t).1 (runOn refuses s o t).2.tree :=
  leads_run refuses s o t []

end CommandLine

end CommandSequence
