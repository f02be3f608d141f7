import CommandSequence.Proofs.Source.Composition
import CommandSequence.Proofs.Source.Outline

/-!
# Seams between texts

A header that is complete leaves the reader at the front of the body, and so do steps and requests
as far as the next of them is concerned: it begins in the same way at every such place
(`Line.read_of_isOpen`). What is collected from there to the end of the text waits for no line
before it (`Place.Collects`), so the items of the whole are those of its parts
(`Outline.read_append`).
-/

namespace CommandSequence.Source

variable {p p' : Place} {line : Line} {lines more : List Line} {c c' : Cursor} {fuel : Nat}

/-- The item belongs to a header. -/
def Item.isHeader : Item → Bool
  | .comment _ | .id .. | .loadAndGo _ | .metadata _ | .block .. => true
  | _ => false

/-- The item is a step or request of the body. -/
def Item.isBody : Item → Bool
  | .step _ | .request _ => true
  | _ => false

/-- Commands stand in the region, and requests end it. -/
def Region.isSection : Region → Bool
  | .immediate | .hardware => true
  | _ => false

/-! ## What is collected -/

namespace Place

/-- What has been collected up to a place fits it: nothing waits for a line that cannot stand before
the place. -/
structure Collects (p : Place) (q : Outline.Pending) : Prop where
  directives : p.tail.takes = [] → q.directives = []
  requestMetadata : p.region.isRequest = false → q.requestMetadata = none
  steps : p.region.isRequest = false → q.steps = []
  declarations : p.region.isBlock = false → q.declarations = []
  commands : p.region.isSection = false → q.commands = []

theorem collects_nil : p.Collects {} :=
  ⟨fun _ => rfl, fun _ => rfl, fun _ => rfl, fun _ => rfl, fun _ => rfl⟩

end Place

namespace Region

variable {r : Region}

theorem of_isFront (h : r.isFront = true) :
    r.isRequest = false ∧ r.isBlock = false ∧ r.isSection = false ∧ r.isLate = false := by
  cases r
  all_goals first | exact ⟨rfl, rfl, rfl, rfl⟩ | cases h

theorem isRequest_of_isBlock (h : r.isBlock = true) : r.isRequest = false := by
  cases r
  all_goals first | rfl | cases h

theorem bodyRegion_of_isFront (h : r.isFront = true) : Line.bodyRegion r = .body := by
  cases r
  all_goals first | rfl | cases h

theorem afterBlock_isFront (block : Block) : (afterBlock block).isFront = true := by
  cases block <;> rfl

theorem of_bodyRegion (r : Region) : (Line.bodyRegion r).isBlock = false ∧
    (Line.bodyRegion r).isSection = false ∧ (Line.bodyRegion r).isFront = false ∧
    (Line.bodyRegion r).isRequest = r.isRequest := by
  cases r <;> exact ⟨rfl, rfl, rfl, rfl⟩

/-- The region after a request, late or not. -/
theorem of_requestEnd (r : Region) :
    (if r = .request true then Region.trailer else .body).isBlock = false ∧
      (if r = .request true then Region.trailer else .body).isSection = false := by
  split <;> exact ⟨rfl, rfl⟩

end Region

theorem Place.Step.collects {q : Outline.Pending} (h : p.Step line p') (hq : p'.Collects q) :
    p.Collects (q.add line) := by
  cases h with
  | blank | comment | id | loadAndGo | metadata =>
    exact ⟨fun _ => hq.directives rfl, fun _ => hq.requestMetadata rfl, fun _ => hq.steps rfl,
      fun _ => hq.declarations rfl, fun _ => hq.commands rfl⟩
  | blockBegin =>
    exact ⟨fun _ => hq.directives rfl, fun _ => hq.requestMetadata rfl, fun _ => hq.steps rfl,
      fun _ => rfl, fun _ => hq.commands rfl⟩
  | declaration hblock =>
    exact ⟨fun _ => hq.directives rfl, hq.requestMetadata, hq.steps,
      fun hno => absurd (hblock.symm.trans hno) (by decide), hq.commands⟩
  | blockEnd _ block =>
    obtain ⟨hrequest, hblock, hsection, -⟩ := Region.of_isFront (Region.afterBlock_isFront block)
    exact ⟨fun _ => hq.directives rfl, fun _ => hq.requestMetadata hrequest,
      fun _ => hq.steps hrequest, fun _ => rfl, fun _ => hq.commands hsection⟩
  | step _ _ line =>
    obtain ⟨hblock, hsection, -, hsame⟩ := Region.of_bodyRegion p.region
    have hdeclarations := hq.declarations hblock
    have hcommands := hq.commands hsection
    have hmetadata (hno : p.region.isRequest = false) : q.requestMetadata = none :=
      hq.requestMetadata (hsame.trans hno)
    unfold Outline.Pending.add
    dsimp only
    split
    · next hsome =>
      have hcontra (hno : p.region.isRequest = false) : False := by simp [hmetadata hno] at hsome
      exact ⟨fun _ => rfl, fun hno => (hcontra hno).elim, fun hno => (hcontra hno).elim,
        fun _ => hdeclarations, fun _ => hcommands⟩
    · exact ⟨fun _ => rfl, hmetadata, fun hno => hq.steps (hsame.trans hno), fun _ => hdeclarations,
        fun _ => hcommands⟩
  | directive hopen =>
    exact ⟨fun hno => absurd hno hopen, hq.requestMetadata, hq.steps, hq.declarations, hq.commands⟩
  | requestBegin =>
    exact ⟨fun _ => rfl, fun _ => rfl, fun _ => rfl, fun _ => hq.declarations rfl,
      fun _ => hq.commands rfl⟩
  | requestEnd hrequest =>
    obtain ⟨hblock, hsection⟩ := Region.of_requestEnd p.region
    have hcontra (hno : p.region.isRequest = false) : False := by simp [hrequest] at hno
    exact ⟨fun _ => rfl, fun hno => (hcontra hno).elim, fun _ => rfl,
      fun _ => hq.declarations hblock, fun _ => hq.commands hsection⟩
  | sectionBegin _ _ _ kind =>
    cases kind <;>
      exact ⟨fun _ => hq.directives rfl, fun _ => hq.requestMetadata rfl, fun _ => hq.steps rfl,
        fun _ => hq.declarations rfl, fun _ => rfl⟩
  | @command kind hregion =>
    have hsection : p.region.isSection = true := by rw [hregion]; cases kind <;> rfl
    exact ⟨fun _ => rfl, hq.requestMetadata, hq.steps, hq.declarations,
      fun hno => absurd (hsection.symm.trans hno) (by decide)⟩

theorem Line.Run.collects {q : Outline.Pending} (h : Line.Run p c lines p' c')
    (hq : p'.Collects q) : p.Collects (lines.foldr Outline.Pending.add q) := by
  induction h with
  | nil => exact hq
  | cons hline _ ih => exact (Line.step_of_read hline).collects (ih hq)

/-- Before a place at which nothing is open, nothing is waited for. -/
theorem Place.Collects.idle {q : Outline.Pending} (hq : p.Collects q)
    (hfront : p.region.isFront = true) (htail : p.tail.takes = []) : q.Idle := by
  obtain ⟨hrequest, hblock, hsection, -⟩ := Region.of_isFront hfront
  exact ⟨hq.directives htail, hq.requestMetadata hrequest, hq.steps hrequest,
    hq.declarations hblock, hq.commands hsection⟩

namespace Outline

/-- The collection with more items after its own. -/
def Pending.followed (q : Pending) (items : List Item) : Pending :=
  { q with items := q.items ++ items }

theorem Pending.add_followed (line : Line) (q : Pending) (items : List Item) :
    (q.followed items).add line = (q.add line).followed items := by
  cases line with
  | step line =>
    simp only [add, followed]
    cases q.requestMetadata <;> rfl
  | _ => rfl

/-- Lines below which nothing waits for a line above make up items of their own. -/
theorem ofLines_append (h : (more.foldr Pending.add {}).Idle) :
    ofLines (lines ++ more) = ofLines lines ++ ofLines more := by
  have hmore : more.foldr Pending.add {} = ({} : Pending).followed (ofLines more) := by
    rw [ofLines]
    generalize more.foldr Pending.add {} = q at h ⊢
    obtain ⟨directives, metadata, steps, declarations, commands, items⟩ := q
    obtain ⟨rfl, rfl, rfl, rfl, rfl⟩ := h
    rfl
  have hfold : (lines ++ more).foldr Pending.add {} =
      (lines.foldr Pending.add {}).followed (ofLines more) := by
    rw [List.foldr_append, hmore]
    induction lines with
    | nil => rfl
    | cons line lines ih => rw [List.foldr_cons, ih, Pending.add_followed]; rfl
  rw [ofLines, hfold]
  rfl

theorem Pending.mem_items_add (line : Line) {q : Pending} {item : Item} (h : item ∈ q.items) :
    item ∈ (q.add line).items := by
  cases line with
  | step line =>
    unfold add
    dsimp only
    split
    · exact h
    · exact List.mem_cons_of_mem _ h
  | blank | declaration | blockEnd | directive | requestEnd | command => exact h
  | _ => exact List.mem_cons_of_mem _ h

end Outline

/-- What each line keeps as long as the items are of one kind, a run of lines keeps. -/
theorem Line.Run.keeps {P : Place → Prop} {Q : Item → Prop} (h : Line.Run p c lines p' c')
    (hstep : ∀ p line p' (q : Outline.Pending), P p → p.Step line p' → p'.Collects q →
      (∀ item ∈ (q.add line).items, Q item) → P p')
    (hp : P p) (hitems : ∀ item ∈ Outline.ofLines lines, Q item) : P p' := by
  induction h with
  | nil => exact hp
  | @cons p p₁ p' c c₁ c' line lines hline hrun ih =>
    have hfirst := hstep p line p₁ _ hp (Line.step_of_read hline)
      (hrun.collects Place.collects_nil) hitems
    exact ih hfirst fun item hitem => hitems item (Outline.Pending.mem_items_add line hitem)

/-! ## Headers and bodies -/

namespace Place

/-- A line of a header may stand at the place, or a declaration of one of its blocks. -/
structure IsHeader (p : Place) : Prop where
  region : p.region.isFront = true ∨ p.region.isBlock = true
  tail : p.tail.takes = []

theorem isHeader_start : start.IsHeader :=
  ⟨.inl rfl, rfl⟩

/-- Since the header nothing but steps and requests has come before the place. -/
inductive IsBody (p : Place) : Prop where
  | front (h : p.region.isFront = true) (htail : p.tail.takes = [])
  | body (h : p.region = .body) (htail : p.tail = .closed ∨ p.tail = .step ∨ p.tail = .request)
  | request (h : p.region = .request false)

/-- A step or request of the body may begin at the place. -/
structure IsOpen (p : Place) : Prop where
  region : p.region.isFront = true ∨ p.region = .body
  tail : p.tail = .closed ∨ p.tail = .step ∨ p.tail = .request

variable {q : Outline.Pending}

/-- Lines that make up items of a header lead from place to place of the header. -/
theorem IsHeader.step (hp : p.IsHeader) (h : p.Step line p') (hq : p'.Collects q)
    (hitems : ∀ item ∈ (q.add line).items, item.isHeader = true) :
    p'.IsHeader ∧ p'.region ≠ .start := by
  have hrequest : p.region.isRequest = false :=
    hp.region.elim (fun h => (Region.of_isFront h).1) Region.isRequest_of_isBlock
  cases h with
  | blank | comment | id | loadAndGo | metadata => exact ⟨⟨.inl rfl, rfl⟩, by decide⟩
  | blockBegin => exact ⟨⟨.inr rfl, rfl⟩, nofun⟩
  | declaration hblock =>
    refine ⟨⟨.inr hblock, rfl⟩, fun hstart => ?_⟩
    simp only at hstart
    rw [hstart] at hblock
    cases hblock
  | blockEnd _ block => cases block <;> exact ⟨⟨.inl rfl, rfl⟩, by decide⟩
  | step =>
    have hnone := hq.requestMetadata ((Region.of_bodyRegion p.region).2.2.2.trans hrequest)
    unfold Outline.Pending.add at hitems
    simp only [hnone] at hitems
    exact absurd (hitems _ List.mem_cons_self) (by simp [Item.isHeader])
  | directive hopen => exact absurd hp.tail hopen
  | requestBegin => exact absurd (hitems _ List.mem_cons_self) (by simp [Item.isHeader])
  | requestEnd h => exact absurd (h.symm.trans hrequest) (by decide)
  | sectionBegin => exact absurd (hitems _ List.mem_cons_self) (by simp [Item.isHeader])
  | @command kind hregion =>
    have hno := hp.region
    rw [hregion] at hno
    cases kind <;> exact absurd hno (by decide)

/-- Lines that make up steps and requests lead from place to place of the body. -/
theorem IsBody.step (hp : p.IsBody) (h : p.Step line p')
    (hitems : ∀ item ∈ (q.add line).items, item.isBody = true) : p'.IsBody := by
  have hregion : p.region.isBlock = false ∧ p.region.isLate = false ∧ p.region ≠ .request true ∧
      p.region.isSection = false := by
    cases hp with
    | front h _ =>
      obtain ⟨hrequest, hblock, hsection, hlate⟩ := Region.of_isFront h
      refine ⟨hblock, hlate, fun hregion => ?_, hsection⟩
      rw [hregion] at hrequest
      cases hrequest
    | body h _ => rw [h]; decide
    | request h => rw [h]; decide
  cases h with
  | blank => exact .front rfl rfl
  | comment | id | loadAndGo | metadata | blockBegin | sectionBegin =>
    exact absurd (hitems _ List.mem_cons_self) (by simp [Item.isBody])
  | declaration h | blockEnd h => exact absurd (h.symm.trans hregion.1) (by decide)
  | step _ _ line =>
    cases hp with
    | front h _ => exact .body (Region.bodyRegion_of_isFront h) (.inr (.inl rfl))
    | body h _ => exact .body (by rw [h]; rfl) (.inr (.inl rfl))
    | request h => exact .request (by rw [h]; rfl)
  | directive hopen =>
    cases hp with
    | front _ htail => exact absurd htail hopen
    | body h htail => exact .body h htail
    | request h => exact .request h
  | requestBegin => exact .request (by simp [Line.insideRequest, hregion.2.1])
  | requestEnd => exact .body (if_neg hregion.2.2.1) (.inr (.inr rfl))
  | @command kind h =>
    rw [h] at hregion
    cases kind <;> exact absurd hregion.2.2.2 (by decide)

/-- Where the text may end after steps and requests, the next of them may begin. -/
theorem IsBody.isOpen (hp : p.IsBody) (hend : Level.refusing? p.levels .endOfInput = none) :
    p.IsOpen := by
  have hdeclaration : p.tail ≠ .declaration := fun htail =>
    absurd (closes_of_refusing? htail hend) (by decide)
  cases hp with
  | front h htail =>
    refine ⟨.inl h, .inl ?_⟩
    revert htail hdeclaration
    cases p.tail <;> simp [Tail.takes, directives]
  | body h htail => exact ⟨.inr h, htail⟩
  | request h =>
    have htakes : ∀ tail : Tail, .endOfInput ∉ tail.takes := fun tail => by cases tail <;> decide
    have hadmits := (admits_of_refusing? hend).resolve_right (htakes _)
    rw [h] at hadmits
    exact absurd hadmits (by decide)

/-! ## The first step or request -/

end Place

/-- The line begins a step or request. -/
def Line.isOpener : Line → Bool
  | .step _ | .requestBegin _ => true
  | _ => false

/-- A line that begins a step or request adds no item of a header. -/
theorem Outline.Pending.add_opener {q : Outline.Pending} (h : line.isOpener = true)
    (hq : ∀ item ∈ q.items, item.isHeader = false) :
    ∀ item ∈ (q.add line).items, item.isHeader = false := by
  cases line with
  | step line =>
    unfold add
    dsimp only
    split
    · exact hq
    · exact List.forall_mem_cons.2 ⟨rfl, hq⟩
  | requestBegin => exact List.forall_mem_cons.2 ⟨rfl, hq⟩
  | _ => cases h

namespace Place

variable {q : Outline.Pending}

/-- The header is over at the place. -/
structure IsPast (p : Place) : Prop where
  front : p.region.isFront = false
  block : p.region.isBlock = false

theorem isPast_bodyRegion {tail : Tail} {afterMetadata : Bool} :
    IsPast ⟨Line.bodyRegion p.region, tail, afterMetadata⟩ :=
  ⟨(Region.of_bodyRegion p.region).2.2.1, (Region.of_bodyRegion p.region).1⟩

/-- After the header there is no header line. -/
theorem IsPast.step (hp : p.IsPast) (h : p.Step line p') : p'.IsPast ∧
    ((∀ item ∈ q.items, item.isHeader = false) →
      ∀ item ∈ (q.add line).items, item.isHeader = false) := by
  cases h with
  | blank h | comment h =>
    have hfront := hp.front
    rw [h] at hfront
    cases hfront
  | id h | loadAndGo h | metadata h | blockBegin h =>
    exact absurd (hp.front.symm.trans h) (by decide)
  | declaration h | blockEnd h => exact absurd (hp.block.symm.trans h) (by decide)
  | step => exact ⟨isPast_bodyRegion, Outline.Pending.add_opener rfl⟩
  | directive => exact ⟨⟨hp.front, hp.block⟩, id⟩
  | requestBegin => exact ⟨⟨rfl, rfl⟩, Outline.Pending.add_opener rfl⟩
  | requestEnd =>
    refine ⟨?_, id⟩
    split <;> exact ⟨rfl, rfl⟩
  | sectionBegin _ _ _ kind =>
    refine ⟨by cases kind <;> exact ⟨rfl, rfl⟩, fun hq => ?_⟩
    exact List.forall_mem_cons.2 ⟨rfl, hq⟩
  | command => exact ⟨⟨hp.front, hp.block⟩, id⟩

/-- At the header's end the first line of an item of the body begins a step or request. -/
theorem opener_of_step (hfront : p.region.isFront = true) (htail : p.tail.takes = [])
    (hstart : p.region ≠ .start) (h : p.Step line p')
    (hitems : ∃ item, (q.add line).items.head? = some item ∧ item.isBody = true) :
    line.isOpener = true ∧ p'.IsPast := by
  obtain ⟨hrequest, hblock, hsection, -⟩ := Region.of_isFront hfront
  obtain ⟨item, hitem, hbody⟩ := hitems
  cases h with
  | blank h => exact absurd h hstart
  | comment | id | loadAndGo | metadata | blockBegin | sectionBegin =>
    cases hitem
    cases hbody
  | declaration h | blockEnd h => exact absurd (h.symm.trans hblock) (by decide)
  | step => exact ⟨rfl, isPast_bodyRegion⟩
  | directive hopen => exact absurd htail hopen
  | requestBegin => exact ⟨rfl, rfl, rfl⟩
  | requestEnd h => exact absurd (h.symm.trans hrequest) (by decide)
  | @command kind h =>
    rw [h] at hsection
    cases kind <;> cases hsection

end Place

theorem Line.Run.isPast (h : Line.Run p c lines p' c') (hp : p.IsPast) :
    ∀ item ∈ Outline.ofLines lines, item.isHeader = false := by
  induction h with
  | nil => exact List.forall_mem_nil _
  | @cons p p₁ p' c c₁ c' line lines hline _ ih =>
    obtain ⟨hpast, hadd⟩ :=
      hp.step (q := lines.foldr Outline.Pending.add {}) (Line.step_of_read hline)
    exact hadd (ih hpast)

/-! ## How a step or request begins -/

/-- Whatever begins a step or request is looked for at open places, and admitted. -/
theorem Place.IsOpen.openers (h : p.IsOpen) {kind : Terminal} (hkind : kind ∈ openers) :
    kind ∈ Level.sought p.levels ∧ Level.refusing? p.levels kind = none := by
  obtain ⟨region, tail, afterMetadata⟩ := p
  have hopen : ∀ r ∈ [Region.start, .opened, .identified, .parameterized, .header, .body],
      ∀ t ∈ [Tail.closed, .step, .request], ∀ m ∈ [true, false], ∀ k ∈ Source.openers,
        k ∈ Level.sought (levels ⟨r, t, m⟩) ∧ Level.refusing? (levels ⟨r, t, m⟩) k = none := by
    decide
  refine hopen region ?_ tail ?_ afterMetadata (by cases afterMetadata <;> decide) kind hkind
  · rcases h.region with hfront | rfl
    · revert hfront
      cases region <;> simp [Region.isFront]
    · decide
  · simpa using h.tail

/-- Nothing is read where nothing is left and the levels admit the end of the text. -/
theorem Cursor.read_eq_none {levels : List Level} : c.read levels = .ok none ↔
    c.rest.dropWhile Terminal.isBlank = [] ∧ Level.refusing? levels .endOfInput = none := by
  constructor
  · intro h
    obtain ⟨found, hnext, h⟩ := bind_eq_ok.1 h
    cases found with
    | none =>
      constructor
      · cases hempty : (c.rest.dropWhile Terminal.isBlank).isEmpty with
        | true => exact List.isEmpty_iff.1 hempty
        | false =>
          cases hcut : firstCut? (Level.sought levels) (c.rest.dropWhile Terminal.isBlank) with
          | none => exact absurd hnext (next_ne_ok hempty hcut none)
          | some cut => rw [next_of_firstCut? hcut] at hnext; cases hnext
      · simp only at h
        split at h
        · assumption
        · cases h
    | some found =>
      simp only at h
      split at h <;> cases h
  · rintro ⟨hempty, hlevels⟩
    have hnext : c.next (Level.sought levels) = .ok none := by
      simp only [next, skipBlanks, hempty, List.isEmpty_nil, if_true]
    refine bind_eq_ok.2 ⟨none, hnext, ?_⟩
    simp only [hlevels]
    rfl

theorem Place.hex_not_mem (p : Place) : .hex ∉ Level.sought p.levels :=
  fun hmem => absurd (Line.sought_levels p _ hmem) (by decide)

/-- The tokens of steps and requests are found wherever they are looked for. -/
theorem Cursor.firstCut?_opener {kinds kinds' : List Terminal} {kind : Terminal}
    {text lexeme left : List Char} (hkinds : ∀ k ∈ openers, k ∈ kinds)
    (hkinds' : ∀ k ∈ openers, k ∈ kinds')
    (hhex : .hex ∉ kinds') (hkind : kind ∈ openers)
    (h : firstCut? kinds text = some (kind, lexeme, left)) :
    firstCut? kinds' text = some (kind, lexeme, left) := by
  obtain ⟨-, hcut, hrivals⟩ := of_firstCut? h
  have hopeners : ∀ kind ∈ openers, ∀ k ∈ Terminal.rivals kind, k = .hex ∨ k ∈ openers := by decide
  refine firstCut?_eq (hkinds' kind hkind) hcut fun k hk hmem => ?_
  rcases hopeners kind hkind k hk with rfl | hopener
  · exact absurd hmem hhex
  · exact hrivals k hk (hkinds k hopener)

namespace Line

theorem opener_of_readFrom {first : Token} (hend : first.kind ≠ .endOfInput)
    (hfirst : first.kind ∈ firsts) :
    Yields (readFrom p first c) fun found => found.1.isOpener = true → first.kind ∈ openers := by
  have hno {α : Type} {r : Except SyntaxError α} {f : α → Line × Place × Cursor}
      (h : ∀ a, (f a).1.isOpener = false) : Yields (r >>= fun a => .ok (f a))
        fun found => found.1.isOpener = true → first.kind ∈ openers :=
    .bind_any fun a => .ok fun hopener => absurd ((h a).symm.trans hopener) (by decide)
  obtain ⟨kind, text, position⟩ := first
  replace hend : kind ≠ .endOfInput := hend
  replace hfirst : kind ∈ firsts := hfirst
  by_cases hopener : kind ∈ openers
  · exact fun _ _ _ => hopener
  unfold readFrom
  cases kind
  case newline => exact .ok nofun
  case engine => exact .bind_any fun _ => hno fun _ => rfl
  case metadata =>
    refine .bind_any fun ⟨line, c⟩ => ?_
    dsimp only
    split <;> exact .ok nofun
  case identifier =>
    show Yields (readNamed _ _ _) _
    unfold readNamed
    split
    all_goals exact hno fun _ => rfl
  case description | id | loadAndGo | parametersBegin | localsBegin | parametersEnd | localsEnd |
    model | epoch | requestEnd | immediate | hardware =>
    exact hno fun _ => rfl
  all_goals first | exact absurd (by decide) hopener | exact absurd hfirst (by decide) |
    exact absurd rfl hend

theorem readFrom_of_isOpen (hp : p.IsOpen) {first : Token} (hkind : first.kind ∈ openers) :
    readFrom p first c = readFrom { region := .body } first c := by
  have hregion {P : Region → Prop} (hbody : P .body) (hfront : ∀ r, r.isFront = true → P r) :
      P p.region := hp.region.elim (hfront _) fun h => h ▸ hbody
  have htimed (tag : Token) : readTimed p.region tag c = readTimed .body tag c := by
    refine hregion (P := fun r => readTimed r tag c = readTimed .body tag c) rfl fun r hr => ?_
    cases r
    all_goals first | rfl | cases hr
  have hinside : insideRequest p.region = insideRequest .body := by
    refine hregion (P := fun r => insideRequest r = insideRequest .body) rfl fun r hr => ?_
    cases r
    all_goals first | rfl | cases hr
  obtain ⟨kind, text, position⟩ := first
  replace hkind : kind ∈ openers := hkind
  cases kind
  case groundEpoch =>
    unfold readFrom
    simp only [hinside]
  case absoluteTime | commandComplete | commandRelative | epochRelative => exact htimed _
  all_goals exact absurd hkind (by decide)

/-- A step or request begins in the same way at all open places. -/
theorem read_of_isOpen {p₁ : Place} {c₁ : Cursor} (hp : p.IsOpen) (hp' : p'.IsOpen)
    (h : read p c = .ok (some (line, p₁, c₁))) (hline : line.isOpener = true) :
    read p' c = .ok (some (line, p₁, c₁)) := by
  obtain ⟨first, after, hread, hfrom⟩ := read_eq_some.1 h
  obtain ⟨hnext, -⟩ := Cursor.read_eq_some.1 hread
  obtain ⟨left, hcut⟩ := Cursor.firstCut?_of_next hnext
  have hof := (Cursor.of_next hnext).of
  have hkind := opener_of_readFrom hof.ne_endOfInput (sought_levels p _ hof.kind) _ hfrom hline
  have hcut' := Cursor.firstCut?_opener (fun k hk => (hp.openers hk).1)
    (fun k hk => (hp'.openers hk).1) (Place.hex_not_mem p') hkind hcut
  have hread' := Cursor.read_eq_some.2
    ⟨(Cursor.next_congr (hcut.trans hcut'.symm)).1 hnext, (hp'.openers hkind).2⟩
  have hsame : readFrom p' first after = readFrom p first after :=
    (readFrom_of_isOpen hp' hkind).trans (readFrom_of_isOpen hp hkind).symm
  exact read_eq_some.2 ⟨first, after, hread', hsame.trans hfrom⟩

namespace Run

variable {p₁ p₂ : Place} {c₁ c₂ : Cursor}

theorem append (h : Run p c lines p₁ c₁) (h' : Run p₁ c₁ more p₂ c₂) :
    Run p c (lines ++ more) p₂ c₂ := by
  induction h with
  | nil => exact h'
  | cons hline _ ih => exact .cons hline (ih h')

/-- A run that begins with a step or request is one from any open place. -/
theorem of_isOpen (h : Run p c (line :: lines) p₂ c₂) (hp : p.IsOpen) (hp' : p'.IsOpen)
    (hline : line.isOpener = true) : Run p' c (line :: lines) p₂ c₂ := by
  obtain _ | ⟨hread, hrest⟩ := h
  exact .cons (read_of_isOpen hp hp' hread hline) hrest

end Run

/-- Nothing is read where nothing is left and the text may end. -/
theorem of_read_none (h : read p c = .ok none) :
    c.rest.dropWhile Terminal.isBlank = [] ∧ Level.refusing? p.levels .endOfInput = none :=
  Cursor.read_eq_none.1 (read_eq_none.1 h)

end Line

/-! ## Texts after a header -/

variable {head tail : List Char} {all : List Line}

namespace EndsAt

/-- A complete header ends at the front of the body. -/
theorem of_header (h : EndsAt head lines p) (hhead : head.getLast? = some ('\n' : Char))
    (hitems : ∀ item ∈ Outline.ofLines lines, item.isHeader = true) :
    p.region.isFront = true ∧ p.tail.takes = [] ∧ p.region ≠ .start ∧ p.IsOpen := by
  obtain ⟨c, hrun, hend⟩ := h
  obtain ⟨hrest, hadmits⟩ := Line.of_read_none hend
  have hkept : p.IsHeader ∧ p.region ≠ .start := by
    cases hrun with
    | nil =>
      have hmem : ('\n' : Char) ∈ head := List.mem_of_getLast? hhead
      exact absurd (List.dropWhile_eq_nil_iff.1 hrest '\n' hmem) (by decide)
    | @cons _ p₁ _ _ c₁ _ line lines hline hrun =>
      have hstep := Line.step_of_read hline
      have hcollects := hrun.collects Place.collects_nil
      refine hrun.keeps (P := fun p => p.IsHeader ∧ p.region ≠ .start)
        (fun _ _ _ _ hp hstep hq hitems => hp.1.step hstep hq hitems)
        (Place.isHeader_start.step hstep hcollects hitems) fun item hitem => hitems item ?_
      exact Outline.Pending.mem_items_add line hitem
  obtain ⟨⟨hregion, htail⟩, hstart⟩ := hkept
  have hfront : p.region.isFront = true := by
    refine hregion.resolve_right fun hblock => ?_
    have hmem :=
      (Place.admits_of_refusing? hadmits).resolve_right (by rw [htail]; exact List.not_mem_nil)
    revert hmem hblock
    exact Region.forall_of_all (P := fun r => r.isBlock = true → .endOfInput ∈ r.admits → False)
      (by decide) p.region
  exact ⟨hfront, htail, hstart, (Place.IsBody.front hfront htail).isOpen hadmits⟩

/-- What is read of a longer text goes on from the header's end, and makes up items of its own. -/
theorem goes_on (h : EndsAt head lines p) (hhead : head.getLast? = some ('\n' : Char))
    (hfront : p.region.isFront = true) (htail : p.tail.takes = [])
    (hread : readLines (head ++ tail) = .ok all) :
    ∃ c rest p' c', c.rest = nextLine tail ∧ Line.Run p c rest p' c' ∧ Line.read p' c' = .ok none ∧
      EndsAt (head ++ tail) all p' ∧
      (Outline.ofLines all).drop (Outline.ofLines lines).length = Outline.ofLines rest ∧
      (Outline.ofLines all).map Item.unplaced =
        (Outline.ofLines lines ++ Outline.ofLines rest).map Item.unplaced := by
  obtain ⟨lines', c, hrun, hsame, hrest, -⟩ := h.exists_run hhead tail
  obtain ⟨fuel, rest, rfl, hmore⟩ := hrun.of_readAll hread
  obtain ⟨p', c', hrun', hend⟩ := Line.exists_run hmore
  have hidle := (hrun'.collects Place.collects_nil).idle hfront htail
  have hitems : (Outline.ofLines lines).map Item.unplaced =
      (Outline.ofLines lines').map Item.unplaced := by
    rw [← Outline.ofLines_unplaced, hsame, Outline.ofLines_unplaced]
  have hlength : (Outline.ofLines lines).length = (Outline.ofLines lines').length := by
    simpa using congrArg List.length hitems
  refine ⟨c, rest, p', c', hrest, hrun', hend, ⟨c', hrun.append hrun', hend⟩, ?_, ?_⟩
  · rw [Outline.ofLines_append hidle, hlength, List.drop_left]
  · rw [Outline.ofLines_append hidle, List.map_append, List.map_append, hitems]

end EndsAt

namespace Outline

theorem of_read {text : List Char} {o : Outline} (htext : text.getLast? = some ('\n' : Char))
    (h : read text = .ok o) : ∃ lines, readLines text = .ok lines ∧ o.items = ofLines lines := by
  have hterminated : Lines.terminate text = text := by simp [Lines.terminate, htext]
  obtain ⟨lines, hlines, heq⟩ := bind_eq_ok.1 h
  cases heq
  exact ⟨lines, hterminated ▸ hlines, rfl⟩

theorem exists_read {text : List Char} (htext : text.getLast? = some ('\n' : Char))
    (h : readLines text = .ok lines) : ∃ o, read text = .ok o ∧ o.items = ofLines lines := by
  have hterminated : Lines.terminate text = text := by simp [Lines.terminate, htext]
  exact ⟨_, bind_eq_ok.2 ⟨lines, hterminated.symm ▸ h, rfl⟩, rfl⟩

/-- The items of a text after those of its header. -/
def after (o header : Outline) : List Item :=
  o.items.drop header.items.length

/-- If steps and requests can follow a header, and so can a step or request with anything after it,
then the two can follow it one after the other, and the items are those of the three pieces. -/
theorem read_append {body more : List Char} {header first second : Outline}
    (hhead : head.getLast? = some ('\n' : Char)) (hheader : read head = .ok header)
    (hitems : ∀ item ∈ header.items, item.isHeader = true)
    (hbody : body = [] ∨ body.getLast? = some ('\n' : Char))
    (hfirst : read (head ++ body) = .ok first)
    (hsteps : ∀ item ∈ first.after header, item.isBody = true)
    (hmore : more.getLast? = some ('\n' : Char)) (hsecond : read (head ++ more) = .ok second)
    (hopener : (second.after header).head?.any Item.isBody = true) :
    ∃ whole, read (head ++ body ++ more) = .ok whole ∧
      first.items.map Item.unplaced = (header.items ++ first.after header).map Item.unplaced ∧
      second.items.map Item.unplaced = (header.items ++ second.after header).map Item.unplaced ∧
      whole.items.map Item.unplaced =
        (header.items ++ first.after header ++ second.after header).map Item.unplaced ∧
      ∀ item ∈ second.after header, item.isHeader = false := by
  have hbody' : (head ++ body).getLast? = some ('\n' : Char) := by
    rcases hbody with rfl | hbody
    · rwa [List.append_nil]
    · rw [List.getLast?_append, hbody]
      rfl
  have hmore' (text : List Char) : (text ++ more).getLast? = some ('\n' : Char) := by
    rw [List.getLast?_append, hmore]
    rfl
  obtain ⟨lines, hlines, hheaderItems⟩ := of_read hhead hheader
  obtain ⟨lines₁, hlines₁, hfirstItems⟩ := of_read hbody' hfirst
  obtain ⟨lines₂, hlines₂, hsecondItems⟩ := of_read (hmore' head) hsecond
  unfold after at hsteps hopener ⊢
  rw [hheaderItems] at hitems
  rw [hheaderItems, hfirstItems] at hsteps
  rw [hheaderItems, hsecondItems, Option.any_eq_true] at hopener
  rw [hheaderItems, hfirstItems, hsecondItems]
  obtain ⟨p, hends⟩ := exists_endsAt hlines
  obtain ⟨hfront, htail, hstart, hopen⟩ := hends.of_header hhead hitems
  obtain ⟨c₁, rest₁, p₁, c₁', -, hrun₁, hend₁, hends₁, hdrop₁, hsplit₁⟩ :=
    hends.goes_on hhead hfront htail hlines₁
  obtain ⟨c₂, rest₂, p₂, c₂', hnext, hrun₂, hend₂, -, hdrop₂, hsplit₂⟩ :=
    hends.goes_on hhead hfront htail hlines₂
  rw [hdrop₁] at hsteps ⊢
  rw [hdrop₂] at hopener ⊢
  -- the steps and requests leave the reader at an open place
  have hopen₁ : p₁.IsOpen :=
    (hrun₁.keeps (P := Place.IsBody) (fun _ _ _ _ hp hstep _ => hp.step hstep)
      (.front hfront htail) hsteps).isOpen (Line.of_read_none hend₁).2
  -- what follows begins with a step or request, so it begins there as at the header's end
  obtain _ | ⟨hread, hrest⟩ := id hrun₂
  · obtain ⟨item, hitem, -⟩ := hopener
    cases hitem
  rename_i line lines₃
  obtain ⟨hline, hpast⟩ :=
    Place.opener_of_step hfront htail hstart (Line.step_of_read hread) hopener
  have hlast : Line.readAll 1 p₂ c₂' = .ok [] := bind_eq_ok.2 ⟨_, hend₂, rfl⟩
  have hread₂ := (hrun₂.of_isOpen hopen hopen₁ hline).readAll hlast
  rw [List.append_nil] at hread₂
  obtain ⟨wholeLines, hwholeLines, hsame⟩ := hends₁.join hbody' hmore hnext hread₂
  obtain ⟨whole, hwhole, hwholeItems⟩ := exists_read (hmore' _) hwholeLines
  refine ⟨whole, hwhole, hsplit₁, hsplit₂, ?_, ?_⟩
  · have hidle := (hrun₂.collects Place.collects_nil).idle hfront htail
    calc whole.items.map Item.unplaced
        = (ofLines (lines₁ ++ line :: lines₃)).map Item.unplaced := by
          rw [hwholeItems, ← ofLines_unplaced, hsame, ofLines_unplaced]
      _ = (ofLines lines₁ ++ ofLines (line :: lines₃)).map Item.unplaced := by
          rw [ofLines_append hidle]
      _ = _ := by rw [List.map_append, hsplit₁, ← List.map_append]
  · exact Pending.add_opener hline (hrest.isPast hpast)

end Outline

end CommandSequence.Source
