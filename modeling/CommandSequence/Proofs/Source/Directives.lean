import CommandSequence.Proofs.Source.Seams
import Mathlib.Data.List.Perm.Basic

/-!
# The directives below a step

A directive is read alike wherever a step is open (`Line.read_directive`), whatever directive stands
above it: metadata above a line changes what is looked for there, but nothing that can be found and
admitted (`Line.read_afterMetadata`). So directives below a step can be read in any order, and what
follows them is read as before (`exists_readLines_of_shuffled`). The items that the lines make up
then differ in the order of directives alone (`Item.Shuffles`).
-/

namespace CommandSequence.Source

variable {p : Place} {c c' : Cursor} {line : Line} {lines more : List Line}
variable {text before after lexeme left : List Char} {k : Terminal} {kinds kinds' : List Terminal}

/-! ## Shuffled lists -/

/-- The lists have the same entries, and those of metadata and those of models in the same order. -/
structure Shuffled {α : Type} (kind : α → Terminal) (l l' : List α) : Prop where
  perm : l.Perm l'
  metadata : l.filter (kind · == .metadata) = l'.filter (kind · == .metadata)
  models : l.filter (kind · == .model) = l'.filter (kind · == .model)

namespace Shuffled

variable {α β ε : Type} {kindOf : α → Terminal} {kindOf' : β → Terminal} {l l' more : List α}

theorem refl (kindOf : α → Terminal) (l : List α) : Shuffled kindOf l l :=
  ⟨.refl l, rfl, rfl⟩

theorem symm (h : Shuffled kindOf l l') : Shuffled kindOf l' l :=
  ⟨h.perm.symm, h.metadata.symm, h.models.symm⟩

theorem append_right (h : Shuffled kindOf l l') (more : List α) :
    Shuffled kindOf (l ++ more) (l' ++ more) := by
  refine ⟨h.perm.append_right more, ?_, ?_⟩
  · rw [List.filter_append, List.filter_append, h.metadata]
  · rw [List.filter_append, List.filter_append, h.models]

theorem cons (h : Shuffled kindOf l l') (a : α) : Shuffled kindOf (a :: l) (a :: l') := by
  refine ⟨h.perm.cons a, ?_, ?_⟩
  · rw [List.filter_cons, List.filter_cons, h.metadata]
  · rw [List.filter_cons, List.filter_cons, h.models]

theorem map {f : α → β} (h : Shuffled kindOf l l') (hf : ∀ a, kindOf' (f a) = kindOf a) :
    Shuffled kindOf' (l.map f) (l'.map f) := by
  have hfilter (l : List α) (k : Terminal) : (l.map f).filter (kindOf' · == k) =
      (l.filter (kindOf · == k)).map f := by
    rw [List.filter_map]
    exact congrArg (fun q => (l.filter q).map f) (funext fun a => congrArg (· == k) (hf a))
  refine ⟨h.perm.map f, ?_, ?_⟩
  · rw [hfilter, hfilter, h.metadata]
  · rw [hfilter, hfilter, h.models]

/-- What a function gives for the entries of a list, it gives for those of a shuffled one. -/
theorem exists_mapM {f : α → Except ε β} {out : List β} (h : Shuffled kindOf l l')
    (hf : ∀ a, Yields (f a) fun b => kindOf' b = kindOf a) (hout : l.mapM f = .ok out) :
    ∃ out', l'.mapM f = .ok out' ∧ Shuffled kindOf' out out' := by
  rw [mapM_eq_ok] at hout
  obtain ⟨out', hout', hperm⟩ := List.perm_comp_forall₂ h.perm.symm hout
  have hkept (k : Terminal) {l : List α} {out : List β}
      (h : List.Forall₂ (fun a b => f a = .ok b) l out) :
      (l.filter (kindOf · == k)).mapM f = .ok (out.filter (kindOf' · == k)) := by
    rw [mapM_eq_ok]
    induction h with
    | nil => exact .nil
    | cons hab _ ih =>
      rw [List.filter_cons, List.filter_cons, hf _ _ hab]
      split
      · exact .cons hab ih
      · exact ih
  have hfilter (k : Terminal) (heq : l.filter (kindOf · == k) = l'.filter (kindOf · == k)) :
      out.filter (kindOf' · == k) = out'.filter (kindOf' · == k) :=
    Except.ok.inj ((hkept k hout).symm.trans (heq ▸ hkept k hout'))
  exact ⟨out', mapM_eq_ok.2 hout', hperm.symm, hfilter _ h.metadata, hfilter _ h.models⟩

end Shuffled

/-! ## Lines below a step -/

/-- The terminal that begins a directive. -/
def Directive.kind : Directive → Terminal
  | .metadata _ => .metadata
  | .model _ => .model
  | .engine .. => .engine
  | .epoch .. => .epoch

/-- The place below a step of the body. -/
def Place.belowStep : Place :=
  { region := .body, tail := .step }

/-- A directive as written: lines that are read as the directive below a step. -/
structure DirectiveLine where
  text : List Char
  directive : Directive
  complete : text.getLast? = some ('\n' : Char)
  reads : ∃ place after, after.rest = [] ∧ Line.read .belowStep (Cursor.ofText text) =
    .ok (some (.directive directive, place, after))

/-- The lines of a text lead to a place at which a step is open. -/
structure EndsBelowStep (text : List Char) : Prop where
  complete : text.getLast? = some ('\n' : Char)
  run : ∃ lines place after, after.rest = [] ∧
    Line.Run .start (Cursor.ofText text) lines place after ∧ place.tail = .step

/-- Whether lines from a place lead to the end of the text and to a place with a property. -/
def Line.leads (goal : Place → Bool) : (fuel : Nat) → Place → Cursor → Bool
  | 0, _, _ => false
  | fuel + 1, place, c =>
    if c.rest.isEmpty then goal place
    else (read place c).toOption.any fun found =>
      found.any fun next => leads goal fuel next.2.1 next.2.2

theorem Line.run_of_leads {goal : Place → Bool} {fuel : Nat} (h : leads goal fuel p c = true) :
    ∃ lines place after, after.rest = [] ∧ Run p c lines place after ∧ goal place = true := by
  induction fuel generalizing p c with
  | zero => cases h
  | succ fuel ih =>
    unfold leads at h
    split at h
    · next hempty => exact ⟨[], p, c, List.isEmpty_iff.1 hempty, .nil p c, h⟩
    · obtain ⟨found, hread, h⟩ := succeeds_of_any h
      obtain ⟨⟨line, place, after⟩, rfl, h⟩ := (Option.any_eq_true _ _).1 h
      obtain ⟨lines, place', after', hafter, hrun, hgoal⟩ := ih h
      exact ⟨line :: lines, place', after', hafter, .cons hread hrun, hgoal⟩

theorem EndsBelowStep.of_leads (hcomplete : text.getLast? = some ('\n' : Char))
    (h : Line.leads (·.tail == .step) (text.length + 1) .start (Cursor.ofText text) = true) :
    EndsBelowStep text := by
  obtain ⟨lines, place, after, hafter, hrun, hgoal⟩ := Line.run_of_leads h
  exact ⟨hcomplete, lines, place, after, hafter, hrun, beq_iff_eq.1 hgoal⟩

/-- The directive that a line is. -/
def Line.directive? : Line → Option Directive
  | .directive d => some d
  | _ => none

/-- A text that is read as a directive to its end is a directive as written. -/
theorem DirectiveLine.exists_text (text : List Char)
    (hcomplete : text.getLast? = some ('\n' : Char))
    (h : (Line.read .belowStep (Cursor.ofText text)).toOption.any (fun found =>
      found.any fun next => next.2.2.rest.isEmpty && next.1.directive?.any (·.kind == k)) = true) :
    ∃ l : DirectiveLine, l.text = text ∧ l.directive.kind = k := by
  obtain ⟨found, hread, h⟩ := succeeds_of_any h
  obtain ⟨⟨line, place, after⟩, rfl, h⟩ := (Option.any_eq_true _ _).1 h
  obtain ⟨hafter, h⟩ := Bool.and_eq_true_iff.1 h
  cases line with
  | directive d =>
    exact ⟨⟨text, d, hcomplete, place, after, List.isEmpty_iff.1 hafter, hread⟩, rfl,
      beq_iff_eq.1 h⟩
  | _ => cases h

namespace Place

/-- What a step leaves open: its directives, and what may follow it. -/
def besideStep : List Terminal := .requestEnd :: (directives ++ bodyOpeners)

theorem levels_step (region : Region) (afterMetadata : Bool) :
    levels ⟨region, .step, afterMetadata⟩ = (if afterMetadata then [afterMetadataLevel] else []) ++
      [⟨besideStep, directives⟩, ⟨region.admits, []⟩] := by
  cases afterMetadata <;> rfl

/-- Below a step, metadata above the line make no difference to what is admitted. -/
theorem refusing?_step (htail : p.tail = .step) :
    Level.refusing? p.levels k = none ↔
      k ∈ besideStep ∧ (k ∈ directives ∨ k ∈ p.region.admits) := by
  obtain ⟨region, tail, afterMetadata⟩ := p
  obtain rfl : tail = .step := htail
  have hdirectives : ∀ d ∈ directives, d ∈ besideStep := by decide
  have hinner : Level.refusing? [⟨besideStep, directives⟩, ⟨region.admits, []⟩] k = none ↔
      k ∈ besideStep ∧ (k ∈ directives ∨ k ∈ region.admits) := by
    by_cases hkind : k ∈ directives
    · simp [Level.refusing?, hkind, hdirectives k hkind]
    · by_cases hbeside : k ∈ besideStep <;> simp [Level.refusing?, hkind, hbeside]
  have hadmits : ∀ k ∈ besideStep, k ∈ afterMetadataLevel.admits := by decide
  rw [levels_step]
  cases afterMetadata with
  | false => exact hinner
  | true =>
    refine ⟨fun h => hinner.1 (refusing?_cons h).2, fun h => ?_⟩
    have hmem := List.contains_iff_mem.2 (hadmits k h.1)
    show Level.refusing? (afterMetadataLevel :: _) k = none
    rw [Level.refusing?, if_neg (by simp [afterMetadataLevel]), if_pos hmem]
    exact hinner.2 h

/-- What a step leaves open is looked for below it. -/
theorem mem_sought_step (htail : p.tail = .step) (hkind : k ∈ besideStep) :
    k ∈ Level.sought p.levels := by
  obtain ⟨region, tail, afterMetadata⟩ := p
  obtain rfl : tail = .step := htail
  have hadmits : ∀ k ∈ besideStep, k ∈ afterMetadataLevel.admits := by decide
  rw [levels_step]
  cases afterMetadata with
  | false => exact hkind
  | true => exact hadmits k hkind

end Place

/-- A fixed text is found wherever it is looked for. -/
theorem Cursor.firstCut?_literal {s : String} (hs : k.literal? = some s) (hload : k ≠ .load)
    (hkind : k ∈ kinds') (h : firstCut? kinds text = some (k, lexeme, left)) :
    firstCut? kinds' text = some (k, lexeme, left) := by
  obtain ⟨-, hcut, -⟩ := of_firstCut? h
  have hliteral := hcut
  rw [Terminal.cut?_of_literal hs] at hliteral
  obtain ⟨rfl, rfl⟩ := Terminal.append_of_cutLiteral? hliteral
  have hbegins := Begins.literal hs left fun heq => absurd heq hload
  exact firstCut?_eq hkind hcut fun k hk _ => hbegins.rivals k hk

/-- What a step leaves open is found wherever all of it is looked for. -/
theorem Cursor.firstCut?_besideStep (hkinds : ∀ k ∈ Place.besideStep, k ∈ kinds)
    (hkinds' : ∀ k ∈ Place.besideStep, k ∈ kinds') (hhex : .hex ∉ kinds')
    (hkind : k ∈ Place.besideStep) (h : firstCut? kinds text = some (k, lexeme, left)) :
    firstCut? kinds' text = some (k, lexeme, left) := by
  have hopeners : ∀ k ∈ openers, k ∈ Place.besideStep := by decide
  by_cases hopener : k ∈ openers
  · exact firstCut?_opener (fun k hk => hkinds k (hopeners k hk))
      (fun k hk => hkinds' k (hopeners k hk)) hhex hopener h
  · have hend : k ≠ .endOfInput := by
      rintro rfl
      cases (of_firstCut? h).2.1
    have hliterals : ∀ k ∈ Place.besideStep, k ∉ openers → k ≠ .endOfInput →
        k.literal?.isSome = true ∧ k ≠ .load := by decide
    obtain ⟨hsome, hload⟩ := hliterals k hkind hopener hend
    obtain ⟨s, hs⟩ := Option.isSome_iff_exists.1 hsome
    exact firstCut?_literal hs hload (hkinds' k hkind) h

namespace Line

/-- Below a step, a line is read alike whether or not metadata stand above it. -/
theorem read_afterMetadata {found : Option (Line × Place × Cursor)} (htail : p.tail = .step)
    (afterMetadata : Bool) (h : read p c = .ok found) :
    read { p with afterMetadata } c = .ok found := by
  let p' : Place := { p with afterMetadata }
  have hadmits {k : Terminal} (hk : Level.refusing? p.levels k = none) :
      Level.refusing? p'.levels k = none :=
    (Place.refusing?_step (p := p') htail).2 ((Place.refusing?_step htail).1 hk)
  cases found with
  | none =>
    obtain ⟨hend, hk⟩ := Cursor.read_eq_none.1 (read_eq_none.1 h)
    exact read_eq_none.2 (Cursor.read_eq_none.2 ⟨hend, hadmits hk⟩)
  | some found =>
    obtain ⟨first, after, hread, hfrom⟩ := read_eq_some.1 h
    obtain ⟨hnext, hk⟩ := Cursor.read_eq_some.1 hread
    obtain ⟨left, hcut⟩ := Cursor.firstCut?_of_next hnext
    have hcut' := Cursor.firstCut?_besideStep (fun k hk => Place.mem_sought_step htail hk)
      (fun k hk => Place.mem_sought_step (p := p') htail hk) (Place.hex_not_mem p')
      ((Place.refusing?_step htail).1 hk).1 hcut
    have hread' := Cursor.read_eq_some.2
      ⟨(Cursor.next_congr (hcut.trans hcut'.symm)).1 hnext, hadmits hk⟩
    exact read_eq_some.2 ⟨first, after, hread', hfrom⟩

theorem readAll_afterMetadata {fuel : Nat} (htail : p.tail = .step) (afterMetadata : Bool)
    (h : readAll fuel p c = .ok lines) : readAll fuel { p with afterMetadata } c = .ok lines := by
  cases fuel with
  | zero => cases h
  | succ fuel =>
    obtain ⟨found, hread, h⟩ := bind_eq_ok.1 h
    exact bind_eq_ok.2 ⟨found, read_afterMetadata htail afterMetadata hread, h⟩

/-! ## Directives -/

/-- A directive begins with a keyword of its own. -/
theorem directive_of_readFrom {first : Token} (hfirst : first.kind ∈ Place.besideStep)
    (hend : first.kind ≠ .endOfInput) :
    Yields (readFrom p first c) fun found => ∀ d, found.1 = .directive d →
      first.kind ∈ directives := by
  have hno {α : Type} {r : Except SyntaxError α} {f : α → Line × Place × Cursor}
      (h : ∀ a d, (f a).1 ≠ .directive d) : Yields (r >>= fun a => .ok (f a))
        fun found => ∀ d, found.1 = .directive d → first.kind ∈ directives :=
    .bind_any fun a => .ok fun d heq => absurd heq (h a d)
  by_cases hdirective : first.kind ∈ directives
  · exact fun _ _ _ _ => hdirective
  have htimed (region : Region) (tag : Token) : Yields (readTimed region tag c)
      fun found => ∀ d, found.1 = .directive d → first.kind ∈ directives := by
    refine .bind_any fun ⟨opener, c⟩ => ?_
    dsimp only
    split
    · exact hno fun _ _ => nofun
    · exact hno fun _ _ => nofun
  obtain ⟨kind, text, position⟩ := first
  dsimp only at hfirst hend hdirective
  unfold readFrom
  cases kind
  case requestEnd | immediate | hardware => exact hno fun _ _ => nofun
  case groundEpoch => exact .bind_any fun _ => .bind_any fun _ => hno fun _ _ => nofun
  case absoluteTime | commandComplete | commandRelative | epochRelative => exact htimed _ _
  case endOfInput => exact absurd rfl hend
  all_goals first | exact absurd (by decide) hdirective | exact absurd hfirst (by decide)

/-- The rest of a directive is read alike wherever a step is open. -/
theorem readFrom_directive {q : Place} {first : Token} (hkind : first.kind ∈ directives)
    (hp : p.tail = .step) (hq : q.tail = .step) : readFrom p first c = (readFrom q first c).map
      fun found => (found.1, { p with afterMetadata := found.2.1.afterMetadata }, found.2.2) := by
  obtain ⟨kind, text, position⟩ := first
  dsimp only at hkind
  obtain ⟨region, tail, afterMetadata⟩ := p
  obtain ⟨region', tail', afterMetadata'⟩ := q
  obtain rfl : tail = .step := hp
  obtain rfl : tail' = .step := hq
  unfold readFrom
  cases kind
  case metadata =>
    show readMetadataLine _ _ _ = (readMetadataLine _ _ _).map _
    unfold readMetadataLine
    cases readMetadata position c <;> rfl
  case model => cases readModel position c <;> rfl
  case engine =>
    cases c.expect [.number] with
    | error e => rfl
    | ok found =>
      simp only [Bind.bind, Except.bind]
      cases readNewline found.2 <;> rfl
  case epoch => cases readStringLine c <;> rfl
  all_goals exact absurd hkind (by decide)

/-- A directive is read from its keyword on. -/
theorem of_read_directive {place : Place} {d : Directive} (hp : p.tail = .step)
    (h : read p c = .ok (some (.directive d, place, c'))) : ∃ first after left,
      c.next (Level.sought p.levels) = .ok (some (first, after)) ∧
      Cursor.firstCut? (Level.sought p.levels) (c.rest.dropWhile Terminal.isBlank) =
        some (first.kind, first.text, left) ∧ first.kind ∈ directives ∧
      readFrom p first after = .ok (.directive d, place, c') := by
  obtain ⟨first, after, hread, hfrom⟩ := read_eq_some.1 h
  obtain ⟨hnext, hadmits⟩ := Cursor.read_eq_some.1 hread
  obtain ⟨left, hcut⟩ := Cursor.firstCut?_of_next hnext
  have hend : first.kind ≠ .endOfInput := by
    intro hkind
    have hlexeme := (Cursor.of_firstCut? hcut).2.1
    rw [hkind] at hlexeme
    cases hlexeme
  have hkind := directive_of_readFrom ((Place.refusing?_step hp).1 hadmits).1 hend _ hfrom d rfl
  exact ⟨first, after, left, hnext, hcut, hkind, hfrom⟩

/-- A directive is read alike wherever a step is open. -/
theorem read_directive {q place : Place} {d : Directive} (hq : q.tail = .step)
    (hp : p.tail = .step) (h : read q c = .ok (some (.directive d, place, c'))) :
    ∃ afterMetadata, read p c = .ok (some (.directive d, { p with afterMetadata }, c')) := by
  obtain ⟨first, after, left, hnext, hcut, hkind, hfrom⟩ := of_read_directive hq h
  have hbeside : ∀ k ∈ directives, k ∈ Place.besideStep := by decide
  have hcut' := Cursor.firstCut?_besideStep (fun k hk => Place.mem_sought_step hq hk)
    (fun k hk => Place.mem_sought_step hp hk) (Place.hex_not_mem p) (hbeside _ hkind) hcut
  have hread := Cursor.read_eq_some.2 ⟨(Cursor.next_congr (hcut.trans hcut'.symm)).1 hnext,
    (Place.refusing?_step hp).2 ⟨hbeside _ hkind, .inl hkind⟩⟩
  refine ⟨place.afterMetadata, read_eq_some.2 ⟨first, after, hread, ?_⟩⟩
  rw [readFrom_directive hkind hp hq, hfrom]
  rfl

end Line

namespace Cursor

/-- Blanks before a token make no difference to it. -/
theorem read_skipBlanks (c : Cursor) (levels : List Level) :
    c.skipBlanks.read levels = c.read levels := by
  unfold read
  rw [next_skipBlanks]
  rfl

/-- At the end of the first text the second goes on with the tail. -/
theorem Tracks.before_nextLine {tail : List Char} (h : Tracks tail c c') (hc : c.rest = []) :
    c'.Before (nextLine tail) := by
  rcases h.rest with hrest | ⟨-, hrest⟩
  · exact absurd hc hrest.ne_nil.1
  · exact ⟨hrest, hrest ▸ h.bound⟩

end Cursor

namespace Line

/-- A piece of text that is read as a directive to its end is read so where more text follows, and
leads to the next line. -/
theorem read_directive_append {place : Place} {d : Directive} {rest : List Char}
    (htext : text.getLast? = some ('\n' : Char)) (hafter : c'.rest = [])
    (hread : read .belowStep (Cursor.ofText text) = .ok (some (.directive d, place, c')))
    (hp : p.tail = .step) (hc : c.Before (nextLine (text ++ rest))) :
    ∃ d' afterMetadata after, d'.unplaced = d.unplaced ∧ after.Before (nextLine rest) ∧
      read p c = .ok (some (.directive d', { p with afterMetadata }, after)) := by
  obtain ⟨first, _, left, -, hcut, hkind, -⟩ := of_read_directive rfl hread
  have hkeyword : ∀ k ∈ directives, k.literal?.isSome = true ∧ k ≠ .load ∧ k ≠ .newline ∧
      k ≠ .description := by decide
  obtain ⟨hsome, hload, hnewline, hdescription⟩ := hkeyword _ hkind
  obtain ⟨s, hs⟩ := Option.isSome_iff_exists.1 hsome
  have hliteral := (Cursor.of_firstCut? hcut).2.1
  rw [Terminal.cut?_of_literal hs] at hliteral
  obtain ⟨-, hfront⟩ := Terminal.append_of_cutLiteral? hliteral
  -- the text begins with the keyword, so it is its own next line but for blanks
  have hnext : nextLine (text ++ rest) = (text ++ rest).dropWhile Terminal.isBlank := by
    have hfilled : text.dropWhile Terminal.isBlank ≠ [] := by
      obtain ⟨d, more, hd, -⟩ := Terminal.starts_of_cut? (Cursor.of_firstCut? hcut).2.1
      exact hd ▸ List.cons_ne_nil d more
    have hwhole : (text ++ rest).dropWhile Terminal.isBlank = s.toList ++ (left ++ rest) := by
      rw [List.dropWhile_append, if_neg (by simpa using hfilled), ← List.append_assoc, ← hfront]
      rfl
    rw [← nextLine_dropWhile, hwhole]
    exact nextLine_of_begins (.literal hs _ fun heq => absurd heq hload) hnewline hdescription
  have hrespaced := ((RefilledFrom.refl false text).respaced rest htext).1
  have htracks : Cursor.Tracks rest (Cursor.ofText text).skipBlanks c :=
    ⟨.inl (hc.rest ▸ hnext ▸ (hrespaced.run rfl rfl).2), hc.rest ▸ hc.bound⟩
  have hread' : read .belowStep (Cursor.ofText text).skipBlanks =
      .ok (some (.directive d, place, c')) := by
    unfold read
    rw [Cursor.read_skipBlanks]
    exact hread
  rcases htracks.readLine _ _ hread' with ⟨hnone, -⟩ | ⟨t, ⟨line, _, after⟩, heq, hline, hsame⟩
  · cases hnone
  · cases heq
    obtain ⟨hunplaced, -, htracks', -⟩ := hsame
    cases line with
    | directive d' =>
      obtain ⟨afterMetadata, hread⟩ := read_directive rfl hp hline
      exact ⟨d', afterMetadata, after, (Line.directive.inj hunplaced).symm,
        htracks'.before_nextLine hafter, hread⟩
    | _ => cases hunplaced

end Line

/-! ## Texts with directives below a step -/

theorem getLast?_append {text more : List Char} (htext : text.getLast? = some ('\n' : Char))
    (hmore : more = [] ∨ more.getLast? = some ('\n' : Char)) :
    (text ++ more).getLast? = some ('\n' : Char) := by
  rcases hmore with rfl | hmore
  · rwa [List.append_nil]
  · rw [List.getLast?_append, hmore]
    rfl

namespace DirectiveLine

/-- The text of directives one below the other. -/
def textOf (lines : List DirectiveLine) : List Char :=
  lines.flatMap DirectiveLine.text

theorem complete_textOf (written : List DirectiveLine)
    (hafter : after = [] ∨ after.getLast? = some ('\n' : Char)) :
    textOf written ++ after = [] ∨ (textOf written ++ after).getLast? = some ('\n' : Char) := by
  induction written with
  | nil => exact hafter
  | cons l written ih =>
    rw [textOf, List.flatMap_cons, List.append_assoc]
    exact .inr (getLast?_append l.complete ih)

/-- The lines that directives are read as, apart from their places. -/
def linesOf (lines : List DirectiveLine) : List Line :=
  lines.map fun l => .directive l.directive.unplaced

/-- Directives are read one after the other from wherever a step is open. -/
theorem exists_run (written : List DirectiveLine) (hp : p.tail = .step)
    (hc : c.Before (nextLine (textOf written ++ after))) :
    ∃ found afterMetadata c', found.map Line.unplaced = linesOf written ∧
      Line.Run p c found { p with afterMetadata } c' ∧ c'.Before (nextLine after) := by
  induction written generalizing p c with
  | nil => exact ⟨[], p.afterMetadata, c, rfl, .nil p c, hc⟩
  | cons l written ih =>
    obtain ⟨place, end', hend, hread⟩ := l.reads
    rw [textOf, List.flatMap_cons, List.append_assoc] at hc
    obtain ⟨d, m, c₁, hd, hc₁, hline⟩ := Line.read_directive_append l.complete hend hread hp hc
    obtain ⟨found, m', c', hfound, hrun, hc'⟩ := ih (p := { p with afterMetadata := m }) hp hc₁
    refine ⟨.directive d :: found, m', c', ?_, .cons hline hrun, hc'⟩
    rw [List.map_cons, hfound]
    exact congrArg (· :: linesOf written) (congrArg Line.directive hd)

end DirectiveLine

/-- Directives below a step can be exchanged for others: the rest of the text is read as before. -/
theorem readLines_exchange {written : List DirectiveLine} (hbefore : EndsBelowStep before)
    (hafter : after = [] ∨ after.getLast? = some ('\n' : Char))
    (h : readLines (before ++ (DirectiveLine.textOf written ++ after)) = .ok lines) :
    ∃ head rest, lines.map Line.unplaced = head ++ (DirectiveLine.linesOf written ++ rest) ∧
      ∀ written', ∃ lines', readLines (before ++ (DirectiveLine.textOf written' ++ after)) =
        .ok lines' ∧
        lines'.map Line.unplaced = head ++ (DirectiveLine.linesOf written' ++ rest) := by
  obtain ⟨hcomplete, first, place, c, hc, hrun, hplace⟩ := hbefore
  have hstart (written : List DirectiveLine) : ∃ found afterMetadata c',
      Line.Run .start (Cursor.ofText (before ++ (DirectiveLine.textOf written ++ after))) found
        { place with afterMetadata } c' ∧
      found.map Line.unplaced = first.map Line.unplaced ++ DirectiveLine.linesOf written ∧
      c'.Before (nextLine after) := by
    obtain ⟨first', c₁, hrun', hfirst, htracks⟩ := hrun.track (tracks_append hcomplete _)
    obtain ⟨found, m, c₂, hfound, hmore, hc₂⟩ :=
      DirectiveLine.exists_run written hplace (htracks.before_nextLine hc)
    exact ⟨first' ++ found, m, c₂, hrun'.append hmore,
      by rw [List.map_append, hfirst, hfound], hc₂⟩
  obtain ⟨found, m, c₁, hfound, hunplaced, hc₁⟩ := hstart written
  obtain ⟨fuel, rest, rfl, hrest⟩ := hfound.of_readAll h
  refine ⟨first.map Line.unplaced, rest.map Line.unplaced, ?_, fun written' => ?_⟩
  · rw [List.map_append, hunplaced, List.append_assoc]
  obtain ⟨found', m', c₁', hfound', hunplaced', hc₁'⟩ := hstart written'
  have hrest' := Line.readAll_afterMetadata (p := { place with afterMetadata := m }) hplace m' hrest
  have hcontinues : Continues [] (nextLine after) (nextLine after) := by
    rcases hafter with rfl | hafter
    · exact .inr ⟨rfl, rfl⟩
    · exact (respaced_self hafter).nextLine
  have htracks : Cursor.Tracks [] c₁ c₁' :=
    ⟨hc₁.rest ▸ hc₁'.rest ▸ hcontinues, hc₁'.rest ▸ hc₁'.bound⟩
  obtain ⟨more, hmore, hsame⟩ := htracks.readAll _ (Nat.lt_succ_self _) _ hrest'
  have hlast : (before ++ (DirectiveLine.textOf written' ++ after)).getLast? = some ('\n' : Char) :=
    getLast?_append hcomplete (DirectiveLine.complete_textOf written' hafter)
  obtain ⟨lines', hlines', heq⟩ := exists_readLines hlast (hfound'.readAll hmore)
  refine ⟨lines', hlines', ?_⟩
  rw [heq, List.map_append, hunplaced', ← hsame, List.append_assoc]

/-! ## Items with shuffled directives -/

theorem Shuffled.metadataOf {ds ds' : List Directive} (h : Shuffled Directive.kind ds ds') :
    Outline.metadataOf ds = Outline.metadataOf ds' := by
  have hkept (ds : List Directive) :
      Outline.metadataOf (ds.filter (·.kind == .metadata)) = Outline.metadataOf ds := by
    unfold Outline.metadataOf
    rw [List.filterMap_filter]
    refine List.filterMap_congr fun d _ => ?_
    cases d <;> rfl
  rw [← hkept ds, h.metadata, hkept]

/-- The steps have the same line, and the same directives but for their order. -/
structure StepItem.Shuffles (s s' : StepItem) : Prop where
  line : s.line = s'.line
  directives : Shuffled Directive.kind s.directives s'.directives

/-- The items are the same but for the order of directives below their steps. -/
inductive Item.Shuffles : Item → Item → Prop where
  | refl (item : Item) : Shuffles item item
  | step {s s' : StepItem} (h : s.Shuffles s') : Shuffles (.step s) (.step s')
  | request {steps steps' : List StepItem} (line : RequestLine) (metadata : List MetadataLine)
    (h : List.Forall₂ StepItem.Shuffles steps steps') :
    Shuffles (.request ⟨line, steps, metadata⟩) (.request ⟨line, steps', metadata⟩)

/-- The steps of an item: itself, or those of a request. -/
def Item.steps : Item → List StepItem
  | .step s => [s]
  | .request r => r.steps
  | _ => []

namespace Outline

/-- The steps of an outline, those of requests among them. -/
def steps (outline : Outline) : List StepItem :=
  outline.items.flatMap Item.steps

/-- What has been collected is the same but for the order of directives. -/
structure Pending.Shuffles (q q' : Pending) : Prop where
  directives : Shuffled Directive.kind q.directives q'.directives
  requestMetadata : q.requestMetadata = q'.requestMetadata
  steps : List.Forall₂ StepItem.Shuffles q.steps q'.steps
  declarations : q.declarations = q'.declarations
  commands : q.commands = q'.commands
  items : List.Forall₂ Item.Shuffles q.items q'.items

namespace Pending.Shuffles

variable {q q' : Pending}

theorem of_directives {ds ds' : List Directive} (h : Shuffled Directive.kind ds ds') (q : Pending) :
    Shuffles { q with directives := ds } { q with directives := ds' } := by
  have hsteps (l : List StepItem) : List.Forall₂ StepItem.Shuffles l l :=
    List.forall₂_same.2 fun _ _ => ⟨rfl, .refl _ _⟩
  exact ⟨h, rfl, hsteps q.steps, rfl, rfl, List.forall₂_same.2 fun item _ => .refl item⟩

/-- One more line above keeps what has been collected the same but for the order of directives. -/
theorem add (h : q.Shuffles q') (line : Line) : (q.add line).Shuffles (q'.add line) := by
  obtain ⟨directives, requestMetadata, steps, declarations, commands, items⟩ := q
  obtain ⟨directives', requestMetadata', steps', declarations', commands', items'⟩ := q'
  obtain ⟨hdirectives, hrequest, hsteps, hdeclarations, hcommands, hitems⟩ := h
  dsimp only at hdirectives hrequest hsteps hdeclarations hcommands hitems
  subst hrequest hdeclarations hcommands
  cases line with
  | blank | declaration | blockEnd => exact ⟨hdirectives, rfl, hsteps, rfl, rfl, hitems⟩
  | comment | id | loadAndGo | metadata | blockBegin | sectionBegin =>
    exact ⟨hdirectives, rfl, hsteps, rfl, rfl, .cons (.refl _) hitems⟩
  | directive d => exact ⟨hdirectives.cons d, rfl, hsteps, rfl, rfl, hitems⟩
  | step line =>
    cases requestMetadata with
    | none =>
      exact ⟨.refl _ _, rfl, hsteps, rfl, rfl, .cons (.step ⟨rfl, hdirectives⟩) hitems⟩
    | some _ =>
      exact ⟨.refl _ _, rfl, .cons ⟨rfl, hdirectives⟩ hsteps, rfl, rfl, hitems⟩
  | requestEnd =>
    exact ⟨.refl _ _, congrArg some hdirectives.metadataOf, .nil, rfl, rfl, hitems⟩
  | requestBegin line =>
    exact ⟨.refl _ _, rfl, .nil, rfl, rfl, .cons (.request line _ hsteps) hitems⟩
  | command kind line =>
    have hcommand : CommandItem.mk line (metadataOf directives) = ⟨line, metadataOf directives'⟩ :=
      congrArg (CommandItem.mk line) hdirectives.metadataOf
    exact ⟨.refl _ _, rfl, hsteps, rfl, congrArg (· :: commands) hcommand, hitems⟩

theorem foldr (h : q.Shuffles q') (lines : List Line) :
    (lines.foldr Pending.add q).Shuffles (lines.foldr Pending.add q') := by
  induction lines with
  | nil => exact h
  | cons line lines ih => exact ih.add line

end Pending.Shuffles

/-- Lines among which directives are shuffled make up items whose directives are. -/
theorem ofLines_shuffled {ds ds' : List Directive} (h : Shuffled Directive.kind ds ds')
    (head rest : List Line) : List.Forall₂ Item.Shuffles
      (ofLines (head ++ (ds.map .directive ++ rest)))
      (ofLines (head ++ (ds'.map .directive ++ rest))) := by
  unfold ofLines
  rw [List.foldr_append, List.foldr_append, List.foldr_append, List.foldr_append,
    Pending.foldr_directives, Pending.foldr_directives]
  exact ((Pending.Shuffles.of_directives (h.append_right _) _).foldr head).items

/-- If directives below a step are shuffled, the text is read as before, and apart from places its
items are the same but for the order of directives. -/
theorem read_shuffled {text' : List Char} {written written' : List DirectiveLine}
    {outline : Outline}
    (hbefore : EndsBelowStep before) (h : Shuffled (·.directive.kind) written written')
    (htext : Lines.terminate text = before ++ (DirectiveLine.textOf written ++ after))
    (htext' : Lines.terminate text' = before ++ (DirectiveLine.textOf written' ++ after))
    (hread : read text = .ok outline) : ∃ outline', read text' = .ok outline' ∧
      List.Forall₂ Item.Shuffles (outline.items.map Item.unplaced)
        (outline'.items.map Item.unplaced) := by
  obtain ⟨lines, hlines, heq⟩ := bind_eq_ok.1 hread
  cases heq
  have hafter : after = [] ∨ after.getLast? = some ('\n' : Char) := by
    by_cases hempty : after = []
    · exact .inl hempty
    · have hlast := getLast?_terminate text
      rw [htext, ← List.append_assoc, List.getLast?_append_of_ne_nil _ hempty] at hlast
      exact .inr hlast
  rw [htext] at hlines
  obtain ⟨head, rest, hunplaced, hexchange⟩ := readLines_exchange hbefore hafter hlines
  obtain ⟨lines', hlines', hunplaced'⟩ := hexchange written'
  refine ⟨_, bind_eq_ok.2 ⟨lines', htext' ▸ hlines', rfl⟩, ?_⟩
  have hdirectives (written : List DirectiveLine) : DirectiveLine.linesOf written =
      (written.map fun l => l.directive.unplaced).map .directive :=
    (List.map_map ..).symm
  have hkind (d : Directive) : d.unplaced.kind = d.kind := by cases d <;> rfl
  dsimp only
  rw [← ofLines_unplaced, ← ofLines_unplaced, hunplaced, hunplaced', hdirectives, hdirectives]
  exact ofLines_shuffled (h.map fun l => hkind l.directive) head rest

end Outline

end CommandSequence.Source
