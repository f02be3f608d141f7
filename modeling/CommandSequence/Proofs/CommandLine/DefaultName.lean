import CommandSequence.Proofs.CommandLine.Run
import CommandSequence.Proofs.Text.Cut

/-!
# Names of outputs

Without a name of its own an output is called after its input: the stem of the input's name stays
and the extension is swapped (`defaultName_append`). When JSON is converted the stem is cut once
more, so that it loses what follows its last point if it has one (`Path.stem_cases`). Only a stem
without a point is kept in both directions, and only such stems keep the outputs of two inputs apart
(`default_outputs`).
-/

namespace CommandSequence

/-! ## Stems and extensions -/

namespace Path

variable {before after name : List Char}

/-- A stem names one file, and neither begins nor ends with a point. -/
structure IsStem (name : List Char) : Prop where
  filled : name ≠ []
  head : name.head? ≠ some ('.' : Char)
  last : name.getLast? ≠ some ('.' : Char)
  single : ('/' : Char) ∉ name

instance : DecidablePred IsStem := fun name =>
  decidable_of_iff (name ≠ [] ∧ name.head? ≠ some ('.' : Char) ∧ name.getLast? ≠ some ('.' : Char) ∧
    ('/' : Char) ∉ name)
    ⟨fun h => ⟨h.1, h.2.1, h.2.2.1, h.2.2.2⟩, fun h => ⟨h.filled, h.head, h.last, h.single⟩⟩

theorem ne_point_of_notMem (h : ('.' : Char) ∉ name) : ∀ c ∈ name.reverse, (c != '.') = true := by
  intro c hc
  rw [bne_iff_ne]
  rintro rfl
  exact h (List.mem_reverse.1 hc)

/-- A name is split at its last point, if there is something on either side of it. -/
theorem splitSuffix_append (hbefore : before ≠ []) (hfilled : after ≠ [])
    (hafter : ('.' : Char) ∉ after) :
    splitSuffix (before ++ ('.' : Char) :: after) = (before, ('.' : Char) :: after) := by
  have hrun := ne_point_of_notMem hafter
  have hreverse : (before ++ ('.' : Char) :: after).reverse =
      after.reverse ++ ('.' : Char) :: before.reverse := by
    simp
  have htake : (('.' : Char) :: before.reverse).takeWhile (· != ('.' : Char)) = [] := rfl
  have hdrop : (('.' : Char) :: before.reverse).dropWhile (· != ('.' : Char)) =
      ('.' : Char) :: before.reverse := rfl
  have hone : (after.isEmpty || before.reverse.isEmpty) = false := by
    simp [hbefore, hfilled]
  simp only [splitSuffix, hreverse, List.takeWhile_append_of_pos hrun,
    List.dropWhile_append_of_pos hrun, htake, hdrop, List.append_nil, List.reverse_reverse,
    List.drop_succ_cons, List.drop_zero, hone, Bool.false_eq_true, if_false]

/-- A stem without a point stays as it is; another one is cut at its last point. -/
theorem stem_cases (h : IsStem name) : (('.' : Char) ∉ name ∧ stem name = name) ∨
    ∃ before after, name = before ++ ('.' : Char) :: after ∧ stem name = before := by
  by_cases hpoint : ('.' : Char) ∈ name
  · obtain ⟨front, back, hreverse, hfront⟩ :=
      List.eq_append_cons_of_mem (List.mem_reverse.2 hpoint)
    obtain rfl : name = back.reverse ++ ('.' : Char) :: front.reverse := by
      rw [← List.reverse_reverse name, hreverse]
      simp
    have hbefore : back.reverse ≠ [] := by
      intro hnil
      have hhead := h.head
      rw [hnil] at hhead
      exact hhead rfl
    have hfilled : front.reverse ≠ [] := by
      intro hnil
      have hlast := h.last
      rw [hnil, List.getLast?_append] at hlast
      exact hlast rfl
    have hafter : ('.' : Char) ∉ front.reverse := fun hmem => hfront (List.mem_reverse.1 hmem)
    refine .inr ⟨_, _, rfl, ?_⟩
    rw [stem, splitSuffix_append hbefore hfilled hafter]
  · have hdrop : name.reverse.dropWhile (· != ('.' : Char)) = [] :=
      List.dropWhile_eq_nil_iff.2 (ne_point_of_notMem hpoint)
    refine .inl ⟨hpoint, ?_⟩
    simp only [stem, splitSuffix, hdrop, List.drop_nil, List.isEmpty_nil, Bool.or_true, if_true]

theorem stem_eq_self_iff (h : IsStem name) : stem name = name ↔ ('.' : Char) ∉ name := by
  rcases stem_cases h with ⟨hpoint, hstem⟩ | ⟨before, after, rfl, hstem⟩
  · exact iff_of_true hstem hpoint
  · refine iff_of_false ?_ (fun hpoint => hpoint (by simp))
    rw [hstem]
    intro heq
    have hlength := congrArg List.length heq
    simp at hlength

/-! ## Files in a directory -/

/-- The path of a file in a directory. -/
def child (directory : Path) (name : List Char) : Path :=
  { directory with names := directory.names ++ [name] }

@[simp]
theorem name_child (directory : Path) (name : List Char) : (directory.child name).name = name := by
  simp [child, Path.name]

/-- A text without a slash spells the path of one file. -/
theorem join_ofText (directory : Path) (hfilled : name ≠ []) (hpoint : name ≠ [('.' : Char)])
    (hsingle : ('/' : Char) ∉ name) : directory.join (.ofText name) = directory.child name := by
  have hroot : rootOf name = [] := by
    have hrun : name.takeWhile (· == ('/' : Char)) = [] := by
      rw [List.takeWhile_eq_nil_iff]
      intro hlength heq
      exact hsingle (beq_iff_eq.1 heq ▸ List.getElem_mem hlength)
    simp [rootOf, hrun]
  have hnames : (Cut.split '/' name).filter (fun name => !name.isEmpty && name != [('.' : Char)]) =
      [name] := by
    rw [Cut.split_of_notMem hsingle]
    simp [hfilled, hpoint]
  rw [join, ofText, hroot, hnames]
  rfl

end Path

namespace CommandLine

variable {refuses : Document → Bool} {s : Settings} {o o' : Options} {t : FileTree}
  {direction : Direction}
  {directory directory' : Path} {stem extension : List Char}

/-- An extension, in any spelling, that asks for a direction. -/
structure IsExtension (direction : Direction) (extension : List Char) : Prop where
  known : direction? (Character.lowercase ('.' :: extension)) = some direction
  last : ('.' : Char) ∉ extension
  single : ('/' : Char) ∉ extension

theorem IsExtension.filled (h : IsExtension direction extension) : extension ≠ [] := by
  rintro rfl
  have hnone : direction? (Character.lowercase ['.']) = none := by decide
  have hknown := h.known
  rw [hnone] at hknown
  cases hknown

/-! ## The default name -/

/-- What the default name keeps of a stem: all of it, or what is before its last point. -/
def keptStem : Direction → List Char → List Char
  | .compile, stem => stem
  | .decompile, stem => Path.stem stem

/-- The suffix of the default name. -/
def outputSuffix : Direction → List Char
  | .compile => String.toList ".json"
  | .decompile => String.toList ".seqn"

/-- The default name for a stem. -/
def outputName (direction : Direction) (stem : List Char) : List Char :=
  keptStem direction stem ++ outputSuffix direction

theorem outputName_inj {stem' : List Char} :
    outputName direction stem = outputName direction stem' ↔
      keptStem direction stem = keptStem direction stem' :=
  List.append_left_inj _

theorem keptStem_eq_self_iff (h : Path.IsStem stem) :
    keptStem direction stem = stem ↔ direction = .compile ∨ ('.' : Char) ∉ stem := by
  cases direction with
  | compile => simp [keptStem]
  | decompile => simpa [keptStem] using Path.stem_eq_self_iff h

theorem suffix_append (hstem : Path.IsStem stem) (h : IsExtension direction extension) :
    Path.splitSuffix (stem ++ ('.' : Char) :: extension) = (stem, ('.' : Char) :: extension) :=
  Path.splitSuffix_append hstem.filled h.filled h.last

/-- The default name of an output swaps the extension of the input's name. -/
theorem defaultName_append (hstem : Path.IsStem stem) (h : IsExtension direction extension) :
    defaultName direction (stem ++ ('.' : Char) :: extension) =
      .ok (outputName direction stem) := by
  have hname : Path.stem (stem ++ ('.' : Char) :: extension) = stem := by
    rw [Path.stem, suffix_append hstem h]
  have hpoint : stem ≠ [('.' : Char)] := by
    rintro rfl
    exact hstem.head rfl
  cases direction with
  | compile => rw [defaultName, hname]; rfl
  | decompile => rw [defaultName, hname, if_neg hpoint]; rfl

theorem direction?_append (hstem : Path.IsStem stem) (h : IsExtension direction extension) :
    direction? (lowerSuffix (stem ++ ('.' : Char) :: extension)) = some direction := by
  rw [lowerSuffix, Path.suffix, suffix_append hstem h]
  exact h.known

theorem notMem_keptStem (h : Path.IsStem stem) : ('/' : Char) ∉ keptStem direction stem := by
  cases direction with
  | compile => exact h.single
  | decompile =>
    rw [keptStem]
    rcases Path.stem_cases h with ⟨-, hstem⟩ | ⟨before, after, rfl, hstem⟩
    · rw [hstem]
      exact h.single
    · rw [hstem]
      exact fun hmem => h.single (List.mem_append_left _ hmem)

/-- The default name is that of one file. -/
theorem join_outputName (h : Path.IsStem stem) (directory : Path) :
    directory.join (.ofText (outputName direction stem)) =
      directory.child (outputName direction stem) := by
  have hlength : 5 ≤ (outputName direction stem).length := by
    rw [outputName, List.length_append]
    cases direction <;> exact Nat.le_add_left 5 _
  refine Path.join_ofText directory ?_ ?_ ?_
  · intro hnil
    rw [hnil] at hlength
    exact absurd hlength (by decide)
  · intro hpoint
    rw [hpoint] at hlength
    exact absurd hlength (by decide)
  · intro hmem
    rcases List.mem_append.1 hmem with hmem | hmem
    · exact notMem_keptStem h hmem
    · cases direction <;> exact absurd hmem (by decide)

/-! ## Conversions without a name for the output -/

/-- The options ask to convert a file, and name a directory for the output but no file. -/
structure Unnamed (o : Options) (name : List Char) (directory : Path) : Prop where
  input : o.inputFile = some name
  output : o.outputDirectory = some directory
  unnamed : o.outputFile = []

/-- A conversion finishes, and it has written a text to a file and changed no other file. -/
structure Writes (refuses : Document → Bool) (s : Settings) (o : Options) (t : FileTree)
    (target : Path) : Prop where
  finished : (runOn refuses s o t).1 = .finished
  output : ∃ text bytes, encode? text = some bytes ∧
    (runOn refuses s o t).2.tree.read target = .ok bytes
  others : ∀ l, (runOn refuses s o t).2.tree.locate target ≠ .ok l →
    (runOn refuses s o t).2.tree.content? l = t.content? l

/-- A conversion that finishes has written to the default name in the output directory. -/
theorem writes_outputName (hstem : Path.IsStem stem) (h : IsExtension direction extension)
    (ho : Unnamed o (stem ++ ('.' : Char) :: extension) directory)
    (hfinished : (runOn refuses s o t).1 = .finished) :
    Writes refuses s o t (directory.child (outputName direction stem)) := by
  obtain ⟨output, bytes, hencode, file, source, target, -, -, hfile, rfl, htargets, -, -, -,
    hwritten, hothers⟩ := (leads_run refuses s o t []).finished hfinished
  obtain rfl : stem ++ ('.' : Char) :: extension = file :=
    Option.some.inj (ho.input.symm.trans hfile)
  obtain ⟨directory', direction', name, hdirectory, hdirection, hname, rfl⟩ := htargets
  obtain rfl : directory = directory' := Option.some.inj (ho.output.symm.trans hdirectory)
  have hsource : (o.inputDirectory.join (.ofText (stem ++ ('.' : Char) :: extension))).name =
      stem ++ ('.' : Char) :: extension := by
    rw [Path.join_ofText, Path.name_child]
    · simp
    · intro hpoint
      have hlength := congrArg List.length hpoint
      have hfilled := List.length_pos_iff.2 hstem.filled
      simp only [List.length_append, List.length_cons, List.length_nil] at hlength
      omega
    · intro hmem
      rcases List.mem_append.1 hmem with hmem | hmem
      · exact hstem.single hmem
      · rcases List.mem_cons.1 hmem with heq | hmem
        · exact absurd heq (by decide)
        · exact h.single hmem
  rw [hsource] at hdirection hname
  obtain rfl : direction = direction' :=
    Option.some.inj ((direction?_append hstem h).symm.trans hdirection)
  obtain rfl : outputName direction stem = name :=
    Except.ok.inj ((defaultName_append hstem h).symm.trans hname)
  have htarget : outputPath o directory (outputName direction stem) =
      directory.child (outputName direction stem) := by
    rw [outputPath, ho.unnamed]
    exact join_outputName hstem directory
  rw [htarget] at hwritten hothers
  exact ⟨hfinished, ⟨output, bytes, hencode, hwritten⟩, hothers⟩

/-- Without a name for the output, what is converted from a file goes under the kept stem of its
name and the other extension. Two files with one extension share an output exactly if the same is
kept of their stems, and compiling a file and decompiling the result leads back to what is kept of
its stem. A stem is kept whole unless it has a point and JSON is decompiled. -/
theorem default_outputs (hstem : Path.IsStem stem) (h : IsExtension direction extension) :
    (∀ refuses s o t directory, Unnamed o (stem ++ ('.' : Char) :: extension) directory →
      (runOn refuses s o t).1 = .finished →
      Writes refuses s o t (directory.child (keptStem direction stem ++ outputSuffix direction))) ∧
    (∀ stem', Path.IsStem stem' →
      (defaultName direction (stem ++ ('.' : Char) :: extension) =
          defaultName direction (stem' ++ ('.' : Char) :: extension) ↔
        keptStem direction stem = keptStem direction stem')) ∧
    (∀ refuses s o o' t directory, direction = .compile →
      Unnamed o (stem ++ ('.' : Char) :: extension) o'.inputDirectory →
      (runOn refuses s o t).1 = .finished → Unnamed o' (stem ++ String.toList ".json") directory →
      (runOn refuses s o' (runOn refuses s o t).2.tree).1 = .finished →
      Writes refuses s o t (o'.inputDirectory.child (stem ++ String.toList ".json")) ∧
        Writes refuses s o' (runOn refuses s o t).2.tree
          (directory.child (keptStem .decompile stem ++ String.toList ".seqn"))) ∧
    (keptStem direction stem = stem ↔ direction = .compile ∨ ('.' : Char) ∉ stem) := by
  refine ⟨fun refuses s o t directory ho hfinished => writes_outputName hstem h ho hfinished, ?_,
    ?_, keptStem_eq_self_iff hstem⟩
  · intro stem' hstem'
    rw [defaultName_append hstem h, defaultName_append hstem' h, Except.ok.injEq, outputName_inj]
  · rintro refuses s o o' t directory rfl ho hfinished ho' hfinished'
    have hjson : IsExtension .decompile (String.toList "json") := ⟨by decide, by decide, by decide⟩
    exact ⟨writes_outputName hstem h ho hfinished, writes_outputName hstem hjson ho' hfinished'⟩

/-- A tree with one directory and one file in it. -/
def treeWith (directory file text : String) : FileTree :=
  ⟨[[directory.toList]], [([directory.toList, file.toList], encode text.toList)]⟩

/-- The options to convert a file from one directory to another. -/
def optionsBetween (input output file : String) : Options :=
  ⟨⟨[], [input.toList]⟩, some ⟨[], [output.toList]⟩, some file.toList, [], 1⟩

/-- A text file is compiled, whatever the case of its extension, and decompiled under its own
stem. -/
theorem default_outputs_thereAndBack :
    let o := optionsBetween "in" "out" "a.SeqN"
    let o' := optionsBetween "out" "back" "a.json"
    let t := treeWith "in" "a.SeqN" "@ID \"d\"\n"
    Path.IsStem ['a'] ∧ IsExtension .compile (String.toList "SeqN") ∧
    (runOn (fun _ => false) {} o t).1 = .finished ∧
      (runOn (fun _ => false) {} o' (runOn (fun _ => false) {} o t).2.tree).1 = .finished ∧
      Writes (fun _ => false) {} o t
        ((⟨[], [String.toList "out"]⟩ : Path).child (String.toList "a.json")) ∧
      Writes (fun _ => false) {} o' (runOn (fun _ => false) {} o t).2.tree
        ((⟨[], [String.toList "back"]⟩ : Path).child (String.toList "a.seqn")) := by
  intro o o' t
  have hstem : Path.IsStem ['a'] := by decide
  have hextends : IsExtension .compile (String.toList "SeqN") := ⟨by decide, by decide, by decide⟩
  have hfinished : (runOn (fun _ => false) {} o t).1 = .finished := by decide +kernel
  have hfinished' : (runOn (fun _ => false) {} o' (runOn (fun _ => false) {} o t).2.tree).1 =
      .finished := by decide +kernel
  obtain ⟨-, -, hback, -⟩ := default_outputs hstem hextends
  have hwrites :=
    hback (fun _ => false) {} o o' t _ rfl ⟨rfl, rfl, rfl⟩ hfinished ⟨rfl, rfl, rfl⟩ hfinished'
  exact ⟨hstem, hextends, hfinished, hfinished', hwrites.1, hwrites.2⟩

/-- A JSON file whose stem has a point is decompiled to a file that lacks a piece of the stem, and
so is another one that differs in this piece only. -/
theorem default_outputs_pointed :
    let o := optionsBetween "in" "out" "a.b.json"
    let t := treeWith "in" "a.b.json" "\x7b\"id\": \"d\"\x7d"
    Path.IsStem (String.toList "a.b") ∧ IsExtension .decompile (String.toList "json") ∧
    (runOn (fun _ => false) {} o t).1 = .finished ∧
      (runOn (fun _ => false) {} o t).2.tree.read
        ⟨[], [String.toList "out", String.toList "a.b.seqn"]⟩ = .error .notFound ∧
      (runOn (fun _ => false) {} o t).2.tree.read
        ⟨[], [String.toList "out", String.toList "a.seqn"]⟩ =
        .ok (encode (String.toList "@ID \"d\"\n")) ∧
      Path.IsStem (String.toList "a.c") ∧
      defaultName .decompile (String.toList "a.b.json") =
        defaultName .decompile (String.toList "a.c.json") := by
  intro o t
  exact ⟨by decide, ⟨by decide, by decide, by decide⟩, by decide +kernel, by decide +kernel,
    by decide +kernel, by decide, by decide⟩

end CommandLine

end CommandSequence
