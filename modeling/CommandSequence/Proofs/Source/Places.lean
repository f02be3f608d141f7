import CommandSequence.Proofs.Source.Lexed

/-!
# From place to place

What a line can be depends on the place where it stands, and so does the place that it leads to:
`Place.Step` lists the cases, one for each kind of line, and every line that is read is one of them
(`Line.step_of_read`). What holds along a text is derived from the list.
-/

namespace CommandSequence.Source

namespace Region

/-- The regions before the body. -/
def isFront : Region → Bool
  | .start | .opened | .identified | .parameterized | .header => true
  | _ => false

/-- Declarations stand in the region, and nothing else. -/
def isBlock : Region → Bool
  | .declarations _ => true
  | _ => false

/-- The region is that of a request. -/
def isRequest : Region → Bool
  | .request _ => true
  | _ => false

/-- All regions. -/
def all : List Region := [.start, .opened, .identified, .parameterized, .header,
  .declarations .parameters, .declarations .locals, .body, .request false, .request true,
  .immediate, .hardware, .trailer]

/-- What holds of the listed regions holds of every region. -/
theorem forall_of_all {P : Region → Prop} (h : ∀ r ∈ all, P r) (r : Region) : P r := by
  refine h r ?_
  cases r with
  | declarations block => cases block <;> decide
  | request late => cases late <;> decide
  | _ => decide

end Region

/-- The region that a section is. -/
def Section.region : Section → Region
  | .immediate => .immediate
  | .hardware => .hardware

/-- The directives that an open construct takes. -/
def Tail.takes : Tail → List Terminal
  | .step => directives
  | .request | .command => [.metadata]
  | .closed | .declaration => []

namespace Place

/-- What a line can be at a place, and where it leads. -/
inductive Step (p : Place) : Line → Place → Prop where
  | blank (h : p.region = .start) : p.Step .blank { region := .opened }
  | comment (h : p.region = .start) (text : Token) : p.Step (.comment text) { region := .opened }
  | id (h : p.region.isFront = true) (position : Position) (name : Token) :
    p.Step (.id position name) { region := .identified }
  | loadAndGo (h : p.region.isFront = true) (position : Position) :
    p.Step (.loadAndGo position) { region := .header }
  | metadata (h : p.region.isFront = true) (line : MetadataLine) :
    p.Step (.metadata line) { region := .header, afterMetadata := true }
  | blockBegin (h : p.region.isFront = true) (position : Position) (block : Block) :
    p.Step (.blockBegin position block) { region := .declarations block }
  | declaration (h : p.region.isBlock = true) (item : DeclarationItem) :
    p.Step (.declaration item) { region := p.region, tail := .declaration }
  | blockEnd (h : p.region.isBlock = true) (block : Block) :
    p.Step (.blockEnd block) { region := Region.afterBlock block }
  | step (hlate : p.region.isLate = false) (hblock : p.region.isBlock = false) (line : StepLine) :
    p.Step (.step line) { region := Line.bodyRegion p.region, tail := .step }
  | directive (h : p.tail.takes ≠ []) (d : Directive) (afterMetadata : Bool) :
    p.Step (.directive d) { p with afterMetadata }
  | requestBegin (hblock : p.region.isBlock = false) (hrequest : p.region.isRequest = false)
    (line : RequestLine) : p.Step (.requestBegin line) (Line.insideRequest p.region)
  | requestEnd (h : p.region.isRequest = true) : p.Step .requestEnd
    { region := if p.region = .request true then .trailer else .body, tail := .request }
  | sectionBegin (hblock : p.region.isBlock = false) (hrequest : p.region.isRequest = false)
    (position : Position) (kind : Section) :
    p.Step (.sectionBegin position kind) { region := kind.region }
  | command {kind : Section} (h : p.region = kind.region) (line : CommandLine) :
    p.Step (.command kind line) { region := p.region, tail := .command }

theorem refusing?_append {inner outer : List Level} {kind : Terminal}
    (h : Level.refusing? (inner ++ outer) kind = none) :
    (∃ level ∈ inner, kind ∈ level.takes) ∨ Level.refusing? outer kind = none := by
  induction inner with
  | nil => exact .inr h
  | cons level inner ih =>
    simp only [List.cons_append, Level.refusing?] at h
    split at h
    · next htakes => exact .inl ⟨level, List.mem_cons_self, List.contains_iff_mem.1 htakes⟩
    · split at h
      · refine (ih h).imp_left ?_
        rintro ⟨l, hl, hkind⟩
        exact ⟨l, List.mem_cons_of_mem level hl, hkind⟩
      · cases h

theorem refusing?_cons {admits : List Terminal} {outer : List Level} {kind : Terminal}
    (h : Level.refusing? (⟨admits, []⟩ :: outer) kind = none) :
    kind ∈ admits ∧ Level.refusing? outer kind = none := by
  simp only [Level.refusing?, List.contains_nil, Bool.false_eq_true, if_false] at h
  split at h
  · next hmem => exact ⟨List.contains_iff_mem.1 hmem, h⟩
  · cases h

/-- What may begin a line is admitted by the open construct, unless that takes it, and by the
region. -/
theorem refusing?_tail {p : Place} {kind : Terminal} (h : Level.refusing? p.levels kind = none) :
    Level.refusing? (tailLevel p.region p.tail ++ [⟨p.region.admits, []⟩]) kind = none := by
  unfold levels at h
  rw [List.append_assoc] at h
  refine (refusing?_append h).resolve_left fun ⟨level, hlevel, hkind⟩ => ?_
  have htakes : level.takes = [] := by
    rcases List.mem_append.1 hlevel with hlevel | hlevel
    · split at hlevel
      · rw [List.mem_singleton.1 hlevel]; rfl
      · exact absurd hlevel List.not_mem_nil
    · split at hlevel
      · rw [List.mem_singleton.1 hlevel]; rfl
      · exact absurd hlevel List.not_mem_nil
  rw [htakes] at hkind
  exact absurd hkind List.not_mem_nil

/-- What may begin a line is admitted by its region or taken by the open construct. -/
theorem admits_of_refusing? {p : Place} {kind : Terminal}
    (h : Level.refusing? p.levels kind = none) : kind ∈ p.region.admits ∨ kind ∈ p.tail.takes := by
  rcases refusing?_append (refusing?_tail h) with ⟨level, hlevel, hkind⟩ | h
  · refine .inr ?_
    cases htail : p.tail
    all_goals
      rw [htail] at hlevel
      first
      | exact absurd hlevel List.not_mem_nil
      | rw [List.mem_singleton.1 hlevel] at hkind
        exact hkind
  · exact .inl (refusing?_cons h).1

/-- After a declaration stands another, or the end of its block. -/
theorem closes_of_refusing? {p : Place} {kind : Terminal} (htail : p.tail = .declaration)
    (h : Level.refusing? p.levels kind = none) :
    kind ∈ [Terminal.identifier, .parametersEnd, .localsEnd] := by
  have hlevels := refusing?_tail h
  rw [htail] at hlevels
  exact (refusing?_cons hlevels).1

end Place

namespace Line

variable {p p' : Place} {line : Line} {c c' : Cursor}

/-- After a late time tag only a request can begin. -/
theorem requestBegin_of_late {region : Region} {kind : Terminal} (hlate : region.isLate = true)
    (h : Level.refusing? (afterTag region) kind = none) : stepKind? kind = none := by
  have hlevels : afterTag region =
      [⟨.requestBegin :: stepOpeners, []⟩, ⟨[.requestBegin], []⟩] := by
    cases region
    all_goals first | rfl | cases hlate
  rw [hlevels] at h
  have hkind := List.mem_singleton.1 (Place.refusing?_cons (Place.refusing?_cons h).2).1
  rw [hkind]
  rfl

/-- Inside a request only a step can begin after a time tag. -/
theorem step_of_request {region : Region} {kind : Terminal} (hrequest : region.isRequest = true)
    (h : Level.refusing? (afterTag region) kind = none) : stepKind? kind ≠ none := by
  have hlevels : afterTag region = [⟨.requestBegin :: stepOpeners, []⟩, ⟨stepOpeners, []⟩] := by
    cases region
    all_goals first | rfl | cases hrequest
  rw [hlevels] at h
  have hopeners : ∀ kind ∈ stepOpeners, stepKind? kind ≠ none := by decide
  exact hopeners kind (Place.refusing?_cons (Place.refusing?_cons h).2).1

theorem step_readTimed {tag : Token} (hblock : p.region.isBlock = false) :
    Yields (readTimed p.region tag c) fun found => p.Step found.1 found.2.1 := by
  have htake : Yields (c.take (afterTag p.region)) fun found =>
      Level.refusing? (afterTag p.region) found.1.kind = none :=
    fun _ h => (Cursor.of_take h).2
  refine htake.bind fun ⟨opener, c⟩ hadmits => ?_
  dsimp only
  split
  · next kind hkind =>
    refine .bind_any fun ⟨line, c⟩ => .ok (.step ?_ hblock line)
    cases hlate : p.region.isLate with
    | false => rfl
    | true => exact absurd (hkind.symm.trans (requestBegin_of_late hlate hadmits)) (by simp)
  · next hkind =>
    refine .bind_any fun ⟨line, c⟩ => .ok (.requestBegin hblock ?_ line)
    cases hrequest : p.region.isRequest with
    | false => rfl
    | true => exact absurd hkind (step_of_request hrequest hadmits)

theorem step_readMetadataLine {position : Position}
    (hclosed : p.tail = .closed → p.region.isFront = true)
    (htakes : p.tail ≠ .closed → p.tail.takes ≠ []) :
    Yields (readMetadataLine p position c) fun found => p.Step found.1 found.2.1 := by
  refine .bind_any fun ⟨line, c⟩ => ?_
  dsimp only
  split
  · next h => exact .ok (.metadata (hclosed (beq_iff_eq.1 h)) line)
  · next h => exact .ok (.directive (htakes (by simpa using h)) (.metadata line) true)

theorem step_readNamed {name : Token}
    (hregion : p.region.isBlock = true ∨ p.region = .immediate ∨ p.region = .hardware) :
    Yields (readNamed p.region name c) fun found => p.Step found.1 found.2.1 := by
  unfold readNamed
  split
  · next h => exact .bind_any fun _ => .ok (Place.Step.command h _)
  · next h => exact .bind_any fun _ => .ok (Place.Step.command h _)
  · next h h' =>
    exact .bind_any fun _ => .ok (.declaration (hregion.resolve_right (not_or.2 ⟨h, h'⟩)) _)

theorem step_readFrom {first : Token} (hadmits : Level.refusing? p.levels first.kind = none)
    (hend : first.kind ≠ .endOfInput) (hfirst : first.kind ∈ firsts) :
    Yields (readFrom p first c) fun found => p.Step found.1 found.2.1 := by
  have hreturn {α : Type} {r : Except SyntaxError α} {f : α → Line × Place × Cursor}
      (h : ∀ a, p.Step (f a).1 (f a).2.1) :
      Yields (r >>= fun a => .ok (f a)) fun found => p.Step found.1 found.2.1 :=
    .bind_any fun a => .ok (h a)
  have htakes : ∀ kind ∈ p.tail.takes, kind ∈ directives := by cases p.tail <;> decide
  have hdirective (hkind : ∀ r ∈ Region.all, first.kind ∉ r.admits) : p.tail.takes ≠ [] :=
    List.ne_nil_of_mem ((Place.admits_of_refusing? hadmits).resolve_left
      (Region.forall_of_all hkind p.region))
  have hregion {P : Region → Prop} (hkind : first.kind ∉ directives)
      (h : ∀ r ∈ Region.all, first.kind ∈ r.admits → P r) : P p.region :=
    Region.forall_of_all h p.region
      ((Place.admits_of_refusing? hadmits).resolve_right fun h => hkind (htakes _ h))
  obtain ⟨kind, text, position⟩ := first
  dsimp only at hadmits hregion hdirective hend hfirst
  unfold readFrom
  cases kind
  case newline => exact .ok (.blank (hregion (P := (· = .start)) (by decide) (by decide)))
  case description =>
    exact hreturn fun _ => .comment (hregion (P := (· = .start)) (by decide) (by decide)) _
  case id =>
    exact hreturn fun _ => .id (hregion (P := (·.isFront = true)) (by decide) (by decide)) _ _
  case loadAndGo =>
    exact hreturn fun _ => .loadAndGo (hregion (P := (·.isFront = true)) (by decide) (by decide)) _
  case parametersBegin =>
    exact hreturn fun _ =>
      .blockBegin (hregion (P := (·.isFront = true)) (by decide) (by decide)) _ _
  case localsBegin =>
    exact hreturn fun _ =>
      .blockBegin (hregion (P := (·.isFront = true)) (by decide) (by decide)) _ _
  case parametersEnd =>
    exact hreturn fun _ => .blockEnd (hregion (P := (·.isBlock = true)) (by decide) (by decide)) _
  case localsEnd =>
    exact hreturn fun _ => .blockEnd (hregion (P := (·.isBlock = true)) (by decide) (by decide)) _
  case metadata =>
    refine step_readMetadataLine (fun htail => ?_) fun htail => ?_
    · have hmem :=
        (Place.admits_of_refusing? hadmits).resolve_right (by rw [htail]; exact List.not_mem_nil)
      exact Region.forall_of_all (P := fun r => .metadata ∈ r.admits → r.isFront = true)
        (by decide) _ hmem
    · cases hopen : p.tail
      case closed => exact absurd hopen htail
      case declaration => exact absurd (Place.closes_of_refusing? hopen hadmits) (by decide)
      all_goals exact List.cons_ne_nil _ _
  case model => exact hreturn fun _ => .directive (hdirective (by decide)) _ false
  case engine =>
    exact .bind_any fun _ => hreturn fun _ => .directive (hdirective (by decide)) _ false
  case epoch => exact hreturn fun _ => .directive (hdirective (by decide)) _ false
  case requestEnd =>
    exact hreturn fun _ => .requestEnd (hregion (P := (·.isRequest = true)) (by decide) (by decide))
  case immediate =>
    exact hreturn fun _ => .sectionBegin
      (hregion (P := (·.isBlock = false)) (by decide) (by decide))
      (hregion (P := (·.isRequest = false)) (by decide) (by decide)) _ .immediate
  case hardware =>
    exact hreturn fun _ => .sectionBegin
      (hregion (P := (·.isBlock = false)) (by decide) (by decide))
      (hregion (P := (·.isRequest = false)) (by decide) (by decide)) _ .hardware
  case groundEpoch =>
    exact .bind_any fun _ => .bind_any fun _ => hreturn fun _ => .requestBegin
      (hregion (P := (·.isBlock = false)) (by decide) (by decide))
      (hregion (P := (·.isRequest = false)) (by decide) (by decide)) _
  case identifier =>
    exact step_readNamed (hregion
      (P := fun r => r.isBlock = true ∨ r = .immediate ∨ r = .hardware) (by decide) (by decide))
  case endOfInput => exact absurd rfl hend
  case absoluteTime =>
    exact step_readTimed (hregion (P := (·.isBlock = false)) (by decide) (by decide))
  case commandComplete =>
    exact step_readTimed (hregion (P := (·.isBlock = false)) (by decide) (by decide))
  case commandRelative =>
    exact step_readTimed (hregion (P := (·.isBlock = false)) (by decide) (by decide))
  case epochRelative =>
    exact step_readTimed (hregion (P := (·.isBlock = false)) (by decide) (by decide))
  all_goals exact absurd hfirst (by decide)

/-- A line is read if its first token is, and the rest of it from there. -/
theorem read_eq_some : read p c = .ok (some (line, p', c')) ↔
    ∃ first after, c.read p.levels = .ok (some (first, after)) ∧
      readFrom p first after = .ok (line, p', c') := by
  constructor
  · intro h
    obtain ⟨found, hread, h⟩ := bind_eq_ok.1 h
    cases found with
    | none => cases h
    | some found =>
      obtain ⟨_, hfrom, heq⟩ := bind_eq_ok.1 h
      cases heq
      exact ⟨found.1, found.2, hread, hfrom⟩
  · rintro ⟨first, after, hread, hfrom⟩
    exact bind_eq_ok.2 ⟨_, hread, bind_eq_ok.2 ⟨_, hfrom, rfl⟩⟩

theorem read_eq_none : read p c = .ok none ↔ c.read p.levels = .ok none := by
  constructor
  · intro h
    obtain ⟨found, hread, h⟩ := bind_eq_ok.1 h
    cases found with
    | none => exact hread
    | some found =>
      obtain ⟨_, -, heq⟩ := bind_eq_ok.1 h
      cases heq
  · intro h
    exact bind_eq_ok.2 ⟨none, h, rfl⟩

/-- Every line that is read is one of those that its place allows, and leads where that leads. -/
theorem step_of_read (h : read p c = .ok (some (line, p', c'))) : p.Step line p' := by
  obtain ⟨first, after, hread, hfrom⟩ := read_eq_some.1 h
  obtain ⟨hfound, hadmits⟩ := Cursor.of_read hread
  exact step_readFrom hadmits hfound.of.ne_endOfInput (sought_levels p _ hfound.of.kind) _ hfrom

end Line

end CommandSequence.Source
