import CommandSequence.Files.Tree

/-!
# What the operations on a file tree leave alone

Making directories takes nothing away: what was at a location is there still (`Grows`), and each new
directory is where the path, or the beginning of it, leads (`Made`). Writing a file changes what is
at one location, the one that the path leads to, and the path leads there afterwards as before.
-/

namespace CommandSequence

namespace FileTree

variable {t t' : FileTree} {p : Path} {l : Location} {content : ByteArray}

/-- The content of the file at a location, if there is one. -/
def content? (t : FileTree) (l : Location) : Option ByteArray :=
  match t.node? l with
  | some (.file content) => some content
  | _ => none

/-! ## Paths in a growing tree -/

/-- Names lead where they led before if no directory is lost. -/
theorem walk_mono (hkept : ∀ l, t.node? l = some .directory → t'.node? l = some .directory)
    {names : List (List Char)} {start : Location} (h : t.walk start names = .ok l) :
    t'.walk start names = .ok l := by
  induction names generalizing start with
  | nil => exact h
  | cons name names ih =>
    unfold walk at h ⊢
    cases hnode : t.node? start with
    | none => simp [hnode] at h
    | some node =>
      cases node with
      | file content => simp [hnode] at h
      | directory =>
        simp only [hnode] at h
        simp only [hkept start hnode]
        split at h
        · cases h
        · next hsize =>
          rw [if_neg hsize]
          exact ih h

theorem locate_mono (hkept : ∀ l, t.node? l = some .directory → t'.node? l = some .directory)
    (h : t.locate p = .ok l) : t'.locate p = .ok l := by
  unfold locate at h ⊢
  split at h
  · cases h
  · next hsize =>
    rw [if_neg hsize]
    exact walk_mono hkept h

/-- The second tree has the same files, and what is at a location of the first is in it too. -/
structure Grows (t t' : FileTree) : Prop where
  files : t'.files = t.files
  node? : ∀ l node, t.node? l = some node → t'.node? l = some node

namespace Grows

theorem refl (t : FileTree) : t.Grows t :=
  ⟨rfl, fun _ _ h => h⟩

theorem trans {t'' : FileTree} (h : t.Grows t') (h' : t'.Grows t'') : t.Grows t'' :=
  ⟨h'.files.trans h.files, fun l node hnode => h'.node? l node (h.node? l node hnode)⟩

theorem locate (h : t.Grows t') (hlocate : t.locate p = .ok l) : t'.locate p = .ok l :=
  locate_mono (fun l => h.node? l .directory) hlocate

/-- No file comes, goes or changes. -/
theorem content? (h : t.Grows t') (l : Location) : t'.content? l = t.content? l := by
  cases hnode : t.node? l with
  | some node => simp only [FileTree.content?, hnode, h.node? l node hnode]
  | none =>
    have hlookup : t.files.lookup l = none := by
      unfold FileTree.node? at hnode
      split at hnode
      · cases hnode
      · exact Option.map_eq_none_iff.1 hnode
    have hnode' : t'.node? l = some .directory ∨ t'.node? l = none := by
      unfold FileTree.node?
      split
      · exact .inl rfl
      · rw [h.files, hlookup]
        exact .inr rfl
    rcases hnode' with hnode' | hnode'
    all_goals simp only [FileTree.content?, hnode, hnode']

/-- What is there reads the same. -/
theorem read (h : t.Grows t') (hpresent : t.present p = .ok true) : t'.read p = t.read p := by
  unfold present at hpresent
  cases hlocate : t.locate p with
  | error e => cases e <;> simp [hlocate] at hpresent
  | ok l =>
    simp only [hlocate, Except.ok.injEq] at hpresent
    obtain ⟨node, hnode⟩ := Option.isSome_iff_exists.1 hpresent
    have hlocate' := h.locate hlocate
    have hnode' := h.node? l node hnode
    unfold FileTree.read
    simp only [hlocate, hlocate', bind, Except.bind, hnode, hnode']

end Grows

/-! ## Making directories -/

/-- The second tree has grown out of the first by directories to which a path, or the beginning of
it, leads. -/
structure Made (p : Path) (t t' : FileTree) : Prop where
  grows : t.Grows t'
  directories : ∀ l ∈ t'.directories, l ∈ t.directories ∨
    ∃ count, t'.locate { p with names := p.names.take count } = .ok l

namespace Made

theorem refl (p : Path) (t : FileTree) : Made p t t :=
  ⟨.refl t, fun _ hl => .inl hl⟩

theorem trans {t'' : FileTree} (h : Made p t t') (h' : Made p t' t'') : Made p t t'' := by
  refine ⟨h.grows.trans h'.grows, fun l hl => ?_⟩
  rcases h'.directories l hl with hold | hnew
  · rcases h.directories l hold with hold | ⟨count, hnew⟩
    · exact .inl hold
    · exact .inr ⟨count, h'.grows.locate hnew⟩
  · exact .inr hnew

/-- A beginning of the path above is a beginning of the path. -/
theorem of_parent (h : Made p.parent t t') : Made p t t' := by
  refine ⟨h.grows, fun l hl => ?_⟩
  rcases h.directories l hl with hold | ⟨count, hnew⟩
  · exact .inl hold
  · refine .inr ⟨min count (p.names.length - 1), ?_⟩
    simpa [Path.parent, List.dropLast_eq_take, List.take_take] using hnew

end Made

theorem node?_makeDirectory {node : FileNode} {other : Location}
    (hnone : t.node? l = none) (hnode : t.node? other = some node) :
    node? { t with directories := l :: t.directories } other = some node := by
  have hne : other ≠ l := by
    rintro rfl
    rw [hnone] at hnode
    cases hnode
  unfold node? at hnode ⊢
  have hcontains : (l :: t.directories).contains other = t.directories.contains other := by
    simp [hne]
  rw [hcontains]
  exact hnode

theorem made_makeDirectory (h : t.makeDirectory p = .ok t') : Made p t t' := by
  unfold makeDirectory at h
  cases hlocate : t.locate p with
  | error e => simp [hlocate, bind, Except.bind] at h
  | ok l =>
    cases hnode : t.node? l with
    | some node =>
      simp [hlocate, bind, Except.bind, hnode, throw, throwThe, MonadExceptOf.throw] at h
    | none =>
      simp only [hlocate, bind, Except.bind, hnode, pure, Except.pure, Except.ok.injEq] at h
      subst h
      have hgrows : t.Grows { t with directories := l :: t.directories } :=
        ⟨rfl, fun _ _ hother => node?_makeDirectory hnode hother⟩
      refine ⟨hgrows, fun other hother => ?_⟩
      rcases List.mem_cons.1 hother with rfl | hold
      · refine .inr ⟨p.names.length, ?_⟩
        rw [List.take_length]
        exact hgrows.locate hlocate
      · exact .inl hold

theorem made_ensureDirectory (t : FileTree) (p : Path) : Made p t (t.ensureDirectory p).1 := by
  unfold ensureDirectory
  split
  · next made h => exact made_makeDirectory h
  · exact .refl p t

theorem made_ensureDirectories (above : Nat) (t : FileTree) (p : Path) :
    Made p t (ensureDirectories above t p).1 := by
  induction above generalizing t p with
  | zero => exact made_ensureDirectory t p
  | succ above ih =>
    have hfirst := made_ensureDirectory t p
    unfold ensureDirectories
    split
    · next made hmade =>
      rw [hmade] at hfirst
      have habove := hfirst.trans (ih made p.parent).of_parent
      split
      · next made' hmade' =>
        rw [hmade'] at habove
        exact habove.trans (made_ensureDirectory made' p)
      · exact habove
    · exact hfirst

theorem made_makeDirectories (t : FileTree) (p : Path) : Made p t (t.makeDirectories p).1 :=
  made_ensureDirectories _ t p

/-! ## Writing a file -/

theorem lookup_putFile (l other : Location) (content : ByteArray)
    (files : List (Location × ByteArray)) :
    (putFile l content files).lookup other =
      if other = l then some content else files.lookup other := by
  induction files with
  | nil =>
    by_cases h : other = l
    · simp [putFile, h]
    · simp [putFile, List.lookup_cons, h, beq_eq_false_iff_ne.2 h]
  | cons file files ih =>
    obtain ⟨place, old⟩ := file
    by_cases hplace : place = l
    · subst hplace
      by_cases h : other = place
      · simp [putFile, h]
      · simp [putFile, List.lookup_cons, h, beq_eq_false_iff_ne.2 h]
    · by_cases h : other = place
      · subst h
        simp [putFile, hplace]
      · simp [putFile, hplace, List.lookup_cons, beq_eq_false_iff_ne.2 h, ih]

theorem write_eq_ok : t.write p content = .ok t' ↔ ∃ l, t.locate p = .ok l ∧
    t.node? l ≠ some .directory ∧ t' = { t with files := putFile l content t.files } := by
  unfold write
  cases hlocate : t.locate p with
  | error e => simp [bind, Except.bind]
  | ok l =>
    cases hnode : t.node? l with
    | none => simp [bind, Except.bind, hnode, pure, Except.pure, eq_comm]
    | some node =>
      cases node with
      | directory => simp [bind, Except.bind, hnode, throw, throwThe, MonadExceptOf.throw]
      | file old => simp [bind, Except.bind, hnode, pure, Except.pure, eq_comm]

/-- What is where after a file was put at a location that is no directory. -/
theorem node?_putFile (h : t.node? l ≠ some .directory) (other : Location) :
    node? { t with files := putFile l content t.files } other =
      if other = l then some (.file content) else t.node? other := by
  unfold node? at h ⊢
  by_cases hother : other = l
  · subst hother
    have hfile : ¬(other.isOuter || t.directories.contains other) = true := fun hdirectory =>
      h (if_pos hdirectory)
    rw [if_neg hfile, if_pos rfl, lookup_putFile, if_pos rfl]
    rfl
  · simp only [lookup_putFile, if_neg hother]

/-- After a file was written, all paths lead where they led. -/
theorem locate_write {q : Path} (h : t.write p content = .ok t') (hlocate : t.locate q = .ok l) :
    t'.locate q = .ok l := by
  obtain ⟨place, -, hfile, rfl⟩ := write_eq_ok.1 h
  refine locate_mono (fun other hother => ?_) hlocate
  have hne : other ≠ place := by
    rintro rfl
    exact hfile hother
  rw [node?_putFile hfile, if_neg hne, hother]

/-- A written file can be read. -/
theorem read_write (h : t.write p content = .ok t') : t'.read p = .ok content := by
  obtain ⟨l, hlocate, hfile, ht'⟩ := write_eq_ok.1 h
  have hlocate' := locate_write h hlocate
  subst ht'
  unfold read
  simp only [hlocate', bind, Except.bind, node?_putFile hfile, if_pos]
  rfl

/-- Nothing but the written file changes. -/
theorem content?_write (h : t.write p content = .ok t') (hother : t'.locate p ≠ .ok l) :
    t'.content? l = t.content? l := by
  obtain ⟨place, hlocate, hfile, ht'⟩ := write_eq_ok.1 h
  have hne : l ≠ place := by
    rintro rfl
    exact hother (locate_write h hlocate)
  subst ht'
  simp only [content?, node?_putFile hfile, if_neg hne]

theorem directories_write (h : t.write p content = .ok t') : t'.directories = t.directories := by
  obtain ⟨_, _, _, rfl⟩ := write_eq_ok.1 h
  rfl

end FileTree

end CommandSequence
