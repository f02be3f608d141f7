import CommandSequence.Proofs.Document.OfOutline
import CommandSequence.Proofs.Document.Unplaced
import CommandSequence.Proofs.Source.Seams

/-!
# Bodies one after the other

If a header can be followed by steps and requests, and also by a text that begins with a step or
request, then it can be followed by the one after the other (`Document.ofText_append`). The document
has the header's fields, the steps and requests of both in their order, and the sections of the
second: its items are those of the three pieces (`Outline.read_append`), and what a document gathers
from items it gathers piece by piece.
-/

namespace CommandSequence

open Source (Outline Item)

namespace OfOutline

variable {validate : Bool} {parts : List Part}

namespace Part

/-- The part is one of a header. -/
def isHeader : Part → Bool
  | .comment | .id _ | .metadata .. | .declarations .. => true
  | _ => false

/-- The part is a step or request. -/
def isBody : Part → Bool
  | .step _ | .request _ => true
  | _ => false

end Part

/-- Parts are of the same sort as their items. -/
theorem sort_of_part (item : Item) : Yields (part validate item) fun p =>
    p.isHeader = item.isHeader ∧ p.isBody = item.isBody := by
  intro p h
  cases meansOf_of_part item p h
  all_goals exact ⟨rfl, rfl⟩

/-- The parts of items of a sort are of that sort. -/
theorem forall_sort {items : List Item} {P : Bool → Bool → Prop}
    (hparts : items.mapM (part validate) = .ok parts)
    (h : ∀ item ∈ items, P item.isHeader item.isBody) : ∀ p ∈ parts, P p.isHeader p.isBody :=
  forall_mem_of_mapM hparts fun item hitem p hp => by
    obtain ⟨hheader, hbody⟩ := sort_of_part item p hp
    rw [hheader, hbody]
    exact h item hitem

/-- Parts of a header hold nothing but its fields. -/
structure AreHeader (parts : List Part) : Prop where
  steps : parts.filterMap Part.step? = []
  requests : parts.filterMap Part.request? = []
  immediateCommands : parts.flatMap Part.immediateCommands = []
  hardwareCommands : parts.flatMap Part.hardwareCommands = []

/-- Parts after a header hold nothing of it. -/
structure ArePast (parts : List Part) : Prop where
  id : parts.findSome? Part.id? = none
  metadata : parts.filterMap Part.metadata? = []
  declarations : ∀ block, parts.flatMap (Part.declarationsOf block) = []

theorem areHeader (h : ∀ p ∈ parts, p.isHeader = true) : AreHeader parts := by
  refine ⟨List.filterMap_eq_nil_iff.2 ?_, List.filterMap_eq_nil_iff.2 ?_,
    List.flatMap_eq_nil_iff.2 ?_, List.flatMap_eq_nil_iff.2 ?_⟩
  all_goals
    intro p hp
    have hheader := h p hp
    cases p
    all_goals first | rfl | cases hheader

theorem arePast (h : ∀ p ∈ parts, p.isHeader = false) : ArePast parts := by
  refine ⟨List.findSome?_eq_none_iff.2 ?_, List.filterMap_eq_nil_iff.2 ?_,
    fun block => List.flatMap_eq_nil_iff.2 ?_⟩
  all_goals
    intro p hp
    have hpast := h p hp
    cases p
    all_goals first | rfl | cases hpast

/-- Steps and requests hold no commands of sections. -/
theorem commands_of_isBody (h : ∀ p ∈ parts, p.isBody = true) :
    parts.flatMap Part.immediateCommands = [] ∧ parts.flatMap Part.hardwareCommands = [] := by
  refine ⟨List.flatMap_eq_nil_iff.2 ?_, List.flatMap_eq_nil_iff.2 ?_⟩
  all_goals
    intro p hp
    have hbody := h p hp
    cases p
    all_goals first | rfl | cases hbody

theorem gather_append {head body more : List Part} {d₁ d₂ : Document} (hhead : AreHeader head)
    (hbody : ∀ p ∈ body, p.isBody = true) (hmore : ArePast more)
    (h₁ : gather (head ++ body) = .ok d₁) (h₂ : gather (head ++ more) = .ok d₂) :
    ∃ d₀, gather head = .ok d₀ ∧ gather (head ++ body ++ more) = .ok { d₀ with
      steps := d₁.steps ++ d₂.steps
      requests := d₁.requests ++ d₂.requests
      immediateCommands := d₂.immediateCommands
      hardwareCommands := d₂.hardwareCommands } := by
  have hpast : ArePast body := arePast fun p hp => by
    have := hbody p hp
    cases p
    all_goals first | rfl | cases this
  obtain ⟨himmediate, hhardware⟩ := commands_of_isBody hbody
  unfold gather at h₁ h₂ ⊢
  simp only [List.findSome?_append, hpast.id, hmore.id, Option.or_none] at h₁ h₂ ⊢
  cases hid : head.findSome? Part.id? with
  | none => rw [hid] at h₁; cases h₁
  | some id =>
    rw [hid] at h₁ h₂
    cases h₁
    cases h₂
    refine ⟨_, rfl, ?_⟩
    simp [List.filterMap_append, List.flatMap_append, hpast.metadata, hmore.metadata,
      hpast.declarations, hmore.declarations, hhead.steps, hhead.requests, hhead.immediateCommands,
      hhead.hardwareCommands, himmediate, hhardware]

end OfOutline

namespace Document

variable {validate : Bool} {head body more : List Char} {header first second : Outline}
variable {d₁ d₂ : Document}

/-- A document gathers from items what it gathers from their parts, wherever they stand. -/
theorem of_ofOutline {outline : Outline} {items : List Item}
    (hitems : outline.items.map Item.unplaced = items.map Item.unplaced) {d : Document} :
    ofOutline validate outline = .ok d ↔
      ∃ parts, items.mapM (OfOutline.part validate) = .ok parts ∧
      OfOutline.gather parts = .ok d := by
  have hsame := @ofOutline_congr validate outline ⟨items, .origin⟩ (congrArg _ hitems)
  rw [← toOption_eq_some, hsame, toOption_eq_some]
  exact bind_eq_ok

/-- What follows a header, be it steps and requests or what begins with one, follows it one after
the other: the document has the header's fields, the steps and requests of both and the commands of
the second. -/
theorem ofText_append (hhead : head.getLast? = some ('\n' : Char))
    (hheader : Outline.read head = .ok header)
    (hitems : ∀ item ∈ header.items, item.isHeader = true)
    (hbody : body = [] ∨ body.getLast? = some ('\n' : Char))
    (hfirst : Outline.read (head ++ body) = .ok first)
    (hsteps : ∀ item ∈ first.after header, item.isBody = true)
    (hmore : more.getLast? = some ('\n' : Char))
    (hsecond : Outline.read (head ++ more) = .ok second)
    (hopener : (second.after header).head?.any Item.isBody = true)
    (h₁ : ofText validate (head ++ body) = .ok d₁) (h₂ : ofText validate (head ++ more) = .ok d₂) :
    ∃ d₀, ofText validate head = .ok d₀ ∧ ofText validate (head ++ body ++ more) = .ok { d₀ with
      steps := d₁.steps ++ d₂.steps
      requests := d₁.requests ++ d₂.requests
      immediateCommands := d₂.immediateCommands
      hardwareCommands := d₂.hardwareCommands } := by
  obtain ⟨whole, hwhole, hitems₁, hitems₂, hitemsWhole, hpast⟩ :=
    Outline.read_append hhead hheader hitems hbody hfirst hsteps hmore hsecond hopener
  obtain ⟨_, hread₁, h₁⟩ := ofText_eq_ok.1 h₁
  obtain ⟨_, hread₂, h₂⟩ := ofText_eq_ok.1 h₂
  cases hread₁.symm.trans hfirst
  cases hread₂.symm.trans hsecond
  obtain ⟨parts₁, hparts₁, hgather₁⟩ := (of_ofOutline hitems₁).1 h₁
  obtain ⟨parts₂, hparts₂, hgather₂⟩ := (of_ofOutline hitems₂).1 h₂
  obtain ⟨headParts, bodyParts, hheadParts, hbodyParts, rfl⟩ := mapM_append_eq_ok.1 hparts₁
  obtain ⟨_, moreParts, hsame, hmoreParts, rfl⟩ := mapM_append_eq_ok.1 hparts₂
  cases hsame.symm.trans hheadParts
  have hheadSort : ∀ p ∈ headParts, p.isHeader = true :=
    OfOutline.forall_sort (P := fun isHeader _ => isHeader = true) hheadParts hitems
  have hbodySort : ∀ p ∈ bodyParts, p.isBody = true :=
    OfOutline.forall_sort (P := fun _ isBody => isBody = true) hbodyParts hsteps
  have hmoreSort : ∀ p ∈ moreParts, p.isHeader = false :=
    OfOutline.forall_sort (P := fun isHeader _ => isHeader = false) hmoreParts hpast
  obtain ⟨d₀, hgather, hgatherWhole⟩ := OfOutline.gather_append (OfOutline.areHeader hheadSort)
    hbodySort (OfOutline.arePast hmoreSort) hgather₁ hgather₂
  have hwholeParts : (header.items ++ first.after header ++ second.after header).mapM
      (OfOutline.part validate) = .ok (headParts ++ bodyParts ++ moreParts) :=
    mapM_append_eq_ok.2 ⟨_, _, mapM_append_eq_ok.2 ⟨_, _, hheadParts, hbodyParts, rfl⟩,
      hmoreParts, rfl⟩
  exact ⟨d₀, ofText_eq_ok.2 ⟨header, hheader, (of_ofOutline rfl).2 ⟨_, hheadParts, hgather⟩⟩,
    ofText_eq_ok.2 ⟨whole, hwhole, (of_ofOutline hitemsWhole).2 ⟨_, hwholeParts, hgatherWhole⟩⟩⟩

/-- A step with metadata below it, and then a request and a section, below the same header. -/
theorem ofText_append_request :
    let head := String.toList "# head\n@ID \"demo\"\n@METADATA \"n\" 0\n"
    let body := String.toList "C NOOP\n@METADATA \"n\" 1\n"
    let more :=
      String.toList "\nC @REQUEST_BEGIN(\"r\") # late\nC NOOP\n@REQUEST_END\n@HARDWARE\nHALT\n"
    ∃ d₁ d₂ d₀, ofText true (head ++ body) = .ok d₁ ∧ ofText true (head ++ more) = .ok d₂ ∧
      ofText true head = .ok d₀ ∧ ofText true (head ++ body ++ more) = .ok { d₀ with
        steps := d₁.steps ++ d₂.steps
        requests := d₁.requests ++ d₂.requests
        immediateCommands := d₂.immediateCommands
        hardwareCommands := d₂.hardwareCommands } := by
  intro head body more
  have houtlines : (Outline.read head).toOption.any (fun header =>
      header.items.all Item.isHeader && (Outline.read (head ++ body)).toOption.any fun first =>
        (first.after header).all Item.isBody && (Outline.read (head ++ more)).toOption.any
          fun second =>
          (second.after header).head?.any Item.isBody) = true := by decide +kernel
  simp only [Option.any_eq_true, Bool.and_eq_true, List.all_eq_true, toOption_eq_some] at houtlines
  obtain ⟨header, hheader, hitems, first, hfirst, hsteps, second, hsecond, item, hopener⟩ :=
    houtlines
  have hdocuments : (ofText true (head ++ body)).toOption.isSome = true ∧
      (ofText true (head ++ more)).toOption.isSome = true := by decide +kernel
  obtain ⟨d₁, h₁⟩ := Option.isSome_iff_exists.1 hdocuments.1
  obtain ⟨d₂, h₂⟩ := Option.isSome_iff_exists.1 hdocuments.2
  rw [toOption_eq_some] at h₁ h₂
  obtain ⟨d₀, h₀, hwhole⟩ := ofText_append (by decide) hheader hitems (.inr (by decide))
    hfirst hsteps (by decide) hsecond (by rw [Option.any_eq_true]; exact ⟨item, hopener⟩) h₁ h₂
  exact ⟨d₁, d₂, d₀, h₁, h₂, h₀, hwhole⟩

end Document

end CommandSequence
