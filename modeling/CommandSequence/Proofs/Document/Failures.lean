import CommandSequence.Proofs.Document.OfOutline
import CommandSequence.Proofs.Document.TextRoundTrip
import CommandSequence.Proofs.Source.Trees

/-!
# How reading a text can fail

An integer is too long for the reader of documents only if one of the tokens that the outline keeps
has a run of too many digits, or one of the strings that its declarations list
(`OfOutline.avoids_part`). Tokens are pieces of the text. So every text gives a document, an error
of grammar or a fault, and the fault is that of a long integer only for such a run
(`Document.ofText_closed`). What a string stands for need not be a piece of the text, since digits
can be escaped in it, and then no run in the text tells of the long integer
(`Document.ofText_escaped`).
-/

namespace CommandSequence

open Decimal (HasLongRun)
open Source (Token Place Line)

namespace OfOutline

variable {α β : Type} {validate : Bool} {token : Token} {text : List Char}

/-- The computation does not fail for an integer that is too long. -/
def Avoids (r : Except Fault α) : Prop :=
  Ends (fun f => f.cause ≠ .integerTooLong) r fun _ => True

namespace Avoids

variable {r : Except Fault α}

theorem ok (a : α) : Avoids (.ok a) :=
  Ends.ok trivial

theorem throw {f : Fault} (h : f.cause ≠ .integerTooLong) : Avoids (.error f : Except Fault α) :=
  Ends.throw h

theorem bind {f : α → Except Fault β} (h : Avoids r) (hf : ∀ a, Avoids (f a)) : Avoids (r >>= f) :=
  Ends.bind h fun a _ => hf a

theorem map (f : α → β) (h : Avoids r) : Avoids (r.map f) := by
  cases r with
  | error e => exact throw (h.error e rfl)
  | ok a => exact ok (f a)

theorem mapM {f : α → Except Fault β} {l : List α} (h : ∀ x ∈ l, Avoids (f x)) :
    Avoids (l.mapM f) := by
  induction l with
  | nil => exact ok []
  | cons x l ih =>
    obtain ⟨hx, hl⟩ := List.forall_mem_cons.1 h
    rw [List.mapM_cons]
    exact hx.bind fun y => (ih hl).bind fun ys => ok (y :: ys)

end Avoids

/-! ## Tokens and values -/

theorem avoids_string (token : Token) : Avoids (string token) := by
  unfold string
  split
  · exact .ok _
  · exact .throw (by rintro ⟨⟩)

theorem avoids_number? (h : ¬HasLongRun text) : Avoids (number? text) := by
  unfold number?
  cases hread : Number.read? text with
  | ok n => exact .ok n
  | error e => exact absurd (Number.hasLongRun_of_read? hread) h

theorem avoids_number (h : ¬HasLongRun token.text) : Avoids (number token) :=
  (avoids_number? h).bind fun _ => .ok _

/-- None of the tokens has a run of digits that is too long. -/
def AreShort (tokens : List Token) : Prop :=
  ∀ token ∈ tokens, ¬HasLongRun token.text

theorem areShort_append {tokens tokens' : List Token} :
    AreShort (tokens ++ tokens') ↔ AreShort tokens ∧ AreShort tokens' :=
  List.forall_mem_append

theorem areShort_cons {tokens : List Token} :
    AreShort (token :: tokens) ↔ ¬HasLongRun token.text ∧ AreShort tokens :=
  List.forall_mem_cons

theorem AreShort.of_flatMap {l : List α} {f : α → List Token} (h : AreShort (l.flatMap f)) {x : α}
    (hx : x ∈ l) : AreShort (f x) :=
  fun token hmem => h token (List.mem_flatMap.2 ⟨x, hx, hmem⟩)

mutual

theorem avoids_value : (v : Source.Value) → AreShort v.tokens → Avoids (value v)
  | .scalar token, h => by
    unfold value
    split
    · exact (avoids_string token).map _
    · exact (avoids_number (h token List.mem_cons_self)).map _
    · exact .ok _
    · exact .ok _
  | .array _ items, h => by
    unfold value
    exact (avoids_values items h).map _
  | .object _ written, h => by
    unfold value
    exact (avoids_members written h).map _

theorem avoids_values : (items : List Source.Value) → AreShort (Source.Value.tokensOfItems items) →
    Avoids (values items)
  | [], _ => .ok []
  | item :: rest, h => by
    obtain ⟨hitem, hrest⟩ := areShort_append.1 h
    exact (avoids_value item hitem).bind fun _ => (avoids_values rest hrest).bind fun _ => .ok _

theorem avoids_members : (written : List (Token × Source.Value)) →
    AreShort (Source.Value.tokensOfMembers written) → Avoids (members written)
  | [], _ => .ok []
  | (key, item) :: rest, h => by
    obtain ⟨hitem, hrest⟩ := areShort_append.1 (areShort_cons.1 h).2
    exact (avoids_string key).bind fun _ => (avoids_value item hitem).bind fun _ =>
      (avoids_members rest hrest).bind fun _ => .ok _

end

theorem avoids_entry {line : Source.MetadataLine} (h : AreShort line.tokens) :
    Avoids (entry line) :=
  (avoids_string _).bind fun _ => (avoids_value _ (areShort_cons.1 h).2).bind fun _ => .ok _

theorem avoids_metadata {lines : List Source.MetadataLine}
    (h : AreShort (lines.flatMap Source.MetadataLine.tokens)) : Avoids (metadata lines) :=
  (Avoids.mapM fun _ hline => avoids_entry (h.of_flatMap hline)).bind fun _ => .ok _

/-! ## Arguments and times -/

theorem avoids_baseArgument (h : ¬HasLongRun token.text) : Avoids (baseArgument token) := by
  unfold baseArgument
  split
  · exact (avoids_string token).bind fun _ => .ok _
  · refine (avoids_number h).bind fun n => ?_
    split
    · exact .ok _
    · exact .throw (by rintro ⟨⟩)
  all_goals exact .ok _

theorem avoids_argument {a : Source.Argument} (h : AreShort a.tokens) : Avoids (argument a) := by
  cases a with
  | single token => exact (avoids_baseArgument (h token List.mem_cons_self)).bind fun _ => .ok _
  | group position items =>
    exact (Avoids.mapM fun token hmem => avoids_baseArgument (h token hmem)).bind fun _ => .ok _

theorem avoids_arguments {written : List Source.Argument}
    (h : AreShort (written.flatMap Source.Argument.tokens)) : Avoids (arguments written) :=
  .mapM fun _ ha => avoids_argument (h.of_flatMap ha)

theorem avoids_tag (token : Token) : Avoids (tag validate token) := by
  unfold tag
  split
  · exact .ok _
  · split
    · exact .throw (by rintro ⟨⟩)
    · exact .ok _

theorem avoids_time (token : Token) : Avoids (time validate token) := by
  unfold time
  split
  · exact (avoids_tag token).map _
  · exact .ok _
  · exact (avoids_tag token).map _
  · exact (avoids_tag token).map _

/-! ## Steps and requests -/

theorem avoids_modelValue (h : ¬HasLongRun token.text) : Avoids (modelValue token) := by
  unfold modelValue
  split
  · exact (avoids_string token).map _
  · exact (avoids_number h).map _
  · exact .ok _

theorem avoids_model {line : Source.ModelLine} (h : ¬HasLongRun line.value.text) :
    Avoids (model line) := by
  have hrest (name : String) : Avoids (do
      let given ← modelValue line.value
      return (⟨name, given, ← string line.offset⟩ : Model)) :=
    (avoids_modelValue h).bind fun _ => (avoids_string _).bind fun _ => .ok _
  unfold model
  split
  · exact (avoids_string _).bind hrest
  · exact hrest _

theorem avoids_effect {d : Source.Directive} (h : AreShort d.tokens) : Avoids (effect d) := by
  cases d with
  | metadata line => exact (avoids_entry h).bind fun _ => .ok _
  | model line =>
    exact (avoids_model (areShort_cons.1 (areShort_cons.1 h).2).1).map _
  | engine position token =>
    refine (avoids_number (h token List.mem_cons_self)).bind fun n => ?_
    cases n with
    | int n => exact .ok _
    | float x => exact .throw (by rintro ⟨⟩)
  | epoch position token => exact (avoids_string token).map _

theorem avoids_action (kind : Source.StepKind) (subject : Token) :
    Avoids (action kind subject) := by
  cases kind with
  | command => exact .ok _
  | _ => exact (avoids_string subject).bind fun _ => .ok _

theorem avoids_checkCalls {isCall : Bool} {seen : List CallDirective}
    (calls : List (CallDirective × Source.Position)) : Avoids (checkCalls isCall seen calls) := by
  induction calls generalizing seen with
  | nil => exact .ok ()
  | cons call calls ih =>
    unfold checkCalls
    split
    · exact .throw (by rintro ⟨⟩)
    · split
      · exact .throw (by rintro ⟨⟩)
      · exact ih

theorem avoids_step {item : Source.StepItem} (h : AreShort item.tokens) :
    Avoids (step validate item) := by
  obtain ⟨hline, hdirectives⟩ := areShort_append.1 h
  have harguments := (areShort_append.1 (areShort_cons.1 (areShort_cons.1 hline).2).2).1
  exact (avoids_time _).bind fun _ => (avoids_action _ _).bind fun _ =>
    (avoids_arguments harguments).bind fun _ =>
    (Avoids.mapM fun _ hd => avoids_effect (hdirectives.of_flatMap hd)).bind fun _ =>
    (avoids_checkCalls _).bind fun _ => .ok _

theorem avoids_groundEpoch (position : Source.Position) (name : String) (delta : Option String) :
    Avoids (groundEpoch position name delta) := by
  unfold groundEpoch
  split
  · exact .ok _
  · exact .throw (by rintro ⟨⟩)

theorem avoids_timing (t : Source.Timing) : Avoids (timing validate t) := by
  cases t with
  | tag token => exact (avoids_time token).map _
  | groundEpoch token name =>
    exact (avoids_string name).bind fun _ => (avoids_tag token).bind fun _ =>
      (avoids_groundEpoch ..).bind fun _ => .ok _

theorem avoids_request {item : Source.RequestItem} (h : AreShort item.tokens) :
    Avoids (request validate item) := by
  obtain ⟨hsteps, hmetadata⟩ := areShort_append.1 (areShort_append.1 h).2
  refine (avoids_timing _).bind fun _ => (avoids_string _).bind fun _ =>
    (Avoids.mapM fun _ hs => avoids_step (hsteps.of_flatMap hs)).bind fun _ =>
    (avoids_metadata hmetadata).bind fun _ => ?_
  split
  · exact .throw (by rintro ⟨⟩)
  · exact .ok _

/-! ## Sections -/

theorem avoids_stem (record : String) (token : Token) : Avoids (stem record token) := by
  unfold stem
  split
  · exact .throw (by rintro ⟨⟩)
  · exact .ok _

theorem avoids_immediateCommand {item : Source.CommandItem} (h : AreShort item.tokens) :
    Avoids (immediateCommand item) := by
  obtain ⟨hline, hmetadata⟩ := areShort_append.1 h
  have harguments := (areShort_append.1 (areShort_cons.1 hline).2).1
  exact (avoids_arguments harguments).bind fun _ => (avoids_metadata hmetadata).bind fun _ =>
    (avoids_stem _ _).bind fun _ => .ok _

theorem avoids_hardwareCommand {item : Source.CommandItem} (h : AreShort item.tokens) :
    Avoids (hardwareCommand item) :=
  (avoids_metadata (areShort_append.1 h).2).bind fun _ => (avoids_stem _ _).bind fun _ => .ok _

/-! ## Declarations -/

theorem splitAtDots_isInfix (text : List Char) :
    (splitAtDots text).1 <+: text ∧ (splitAtDots text).2.getD [] <:+ text := by
  have htext := ReadBack.append_splitAtDots text
  refine ⟨⟨_, htext⟩, ?_⟩
  cases hafter : (splitAtDots text).2 with
  | none => exact List.nil_suffix
  | some rest =>
    rw [hafter, Option.elim_some, ← List.append_assoc] at htext
    exact ⟨_, htext⟩

theorem trimBoth_isInfix (drop : Char → Bool) (text : List Char) :
    Character.trimBoth drop text <:+: text := by
  have hright :=
    (List.reverse_prefix.2 (List.dropWhile_suffix drop (l := (text.dropWhile drop).reverse)))
  rw [List.reverse_reverse] at hright
  exact hright.isInfix.trans (List.dropWhile_suffix drop).isInfix

/-- The first piece of a split text begins it, and the others are pieces of it. -/
theorem split_isInfix (separator : Char) (text : List Char) :
    ∃ first more, Cut.split separator text = first :: more ∧ first <+: text ∧
      ∀ piece ∈ more, piece <:+: text := by
  induction text with
  | nil => exact ⟨[], [], rfl, List.prefix_rfl, List.forall_mem_nil _⟩
  | cons c rest ih =>
    obtain ⟨first, more, hsplit, hfirst, hmore⟩ := ih
    have hrest {piece : List Char} (h : piece <:+: rest) : piece <:+: c :: rest :=
      h.trans (List.suffix_cons c rest).isInfix
    by_cases hc : c = separator
    · refine ⟨[], first :: more, by simp [Cut.split, hc, hsplit], List.nil_prefix, ?_⟩
      exact List.forall_mem_cons.2
        ⟨hrest hfirst.isInfix, fun piece hmem => hrest (hmore piece hmem)⟩
    · exact ⟨c :: first, more, by simp [Cut.split, hc, hsplit], (List.prefix_cons_inj c).2 hfirst,
        fun piece hmem => hrest (hmore piece hmem)⟩

theorem isInfix_of_mem_split {separator : Char} {piece : List Char}
    (h : piece ∈ Cut.split separator text) : piece <:+: text := by
  obtain ⟨first, more, hsplit, hfirst, hmore⟩ := split_isInfix separator text
  rw [hsplit] at h
  rcases List.mem_cons.1 h with rfl | h
  · exact hfirst.isInfix
  · exact hmore piece h

theorem avoids_range {position : Source.Position} {part : List Char} (h : ¬HasLongRun part) :
    Avoids (range position part) := by
  obtain ⟨hbefore, hafter⟩ := splitAtDots_isInfix part
  have hshort {piece : List Char} (hpiece : piece <:+: part) :
      ¬HasLongRun (Character.trimBoth Character.isBlank piece) :=
    fun hlong => h (hlong.mono ((trimBoth_isInfix ..).trans hpiece))
  refine (avoids_number? (hshort hbefore.isInfix)).bind fun low =>
    (avoids_number? (hshort hafter.isInfix)).bind fun high => ?_
  split
  · exact .ok _
  · exact .throw (by rintro ⟨⟩)

theorem avoids_allowableValue {part : List Char} (h : ¬HasLongRun part) :
    Avoids (allowableValue part) := by
  refine (avoids_number? h).bind fun n => ?_
  cases n <;> exact .ok _

/-- The strings of a declaration, which list ranges and values. -/
def lists (item : Source.DeclarationItem) : List Token :=
  item.details.filter (·.kind == .string)

/-- What the strings stand for has no run of digits that is too long. -/
def ListsShort (strings : List Token) : Prop :=
  ∀ token ∈ strings, ∀ s, string token = .ok s → ¬HasLongRun s.toList

theorem avoids_typing (name : String) (words : List Token) : Avoids (typing name words) := by
  unfold typing
  split
  · exact .ok _
  · split <;> exact .ok _
  · split
    · exact .ok _
    · exact .throw (by rintro ⟨⟩)

theorem avoids_ranges {position : Source.Position} {strings : List String}
    (h : ∀ s ∈ strings, ¬HasLongRun s.toList) : Avoids (ranges position strings) := by
  cases strings with
  | nil => exact .ok []
  | cons list more =>
    have hlist := h list List.mem_cons_self
    rw [ranges]
    split
    · exact .ok []
    · exact .mapM fun part hpart =>
        avoids_range fun hlong => hlist (hlong.mono (isInfix_of_mem_split hpart))

theorem avoids_allowableValues {strings : List String}
    (h : ∀ s ∈ strings, ¬HasLongRun s.toList) : Avoids (allowableValues strings) := by
  unfold allowableValues
  split
  · rename_i list more
    have hlist := h list (List.mem_cons_of_mem _ List.mem_cons_self)
    exact .mapM fun part hpart =>
      avoids_allowableValue fun hlong => hlist (hlong.mono (isInfix_of_mem_split hpart))
  · exact .ok []

theorem avoids_declaration {item : Source.DeclarationItem} (h : ListsShort (lists item)) :
    Avoids (declaration item) := by
  -- The numbers of a declaration are read from what its strings stand for, not from their tokens.
  have hstrings : Ends (fun f => f.cause ≠ .integerTooLong) ((lists item).mapM string)
      fun strings => ∀ s ∈ strings, ¬HasLongRun s.toList :=
    ⟨fun _ hread => forall_mem_of_mapM hread h,
      (Avoids.mapM fun token _ => avoids_string token).error⟩
  exact hstrings.bind fun strings hshort => (avoids_typing _ _).bind fun _ =>
    (avoids_ranges hshort).bind fun _ => (avoids_allowableValues hshort).bind fun _ => .ok _

/-! ## Items -/

/-- The strings in the declarations of an item. -/
def itemLists : Source.Item → List Token
  | .block _ _ declarations => declarations.flatMap lists
  | _ => []

theorem avoids_filled {position : Source.Position} {cause : FaultCause}
    (h : cause ≠ .integerTooLong) (list : List α) : Avoids (filled position cause list) := by
  unfold filled
  split
  · exact .throw h
  · exact .ok _

/-- An item whose tokens are short, and what its declarations list, is not too long. -/
theorem avoids_part {item : Source.Item} (h : AreShort item.tokens)
    (hlists : ListsShort (itemLists item)) : Avoids (part validate item) := by
  cases item with
  | comment text => exact .ok _
  | id position name => exact (avoids_string name).map _
  | loadAndGo position => exact .ok _
  | metadata line => exact (avoids_entry h).bind fun _ => .ok _
  | block position block declarations =>
    have hfilled : FaultCause.emptyBlock block ≠ .integerTooLong := (by rintro ⟨⟩)
    refine Avoids.bind (.mapM fun d hd => avoids_declaration fun token hmem => ?_) fun list =>
      (avoids_filled hfilled list).bind fun _ => .ok _
    exact hlists token (List.mem_flatMap.2 ⟨d, hd, hmem⟩)
  | step item => exact (avoids_step h).map _
  | request item => exact (avoids_request h).map _
  | «section» position kind commands =>
    have hfilled (kind : Source.Section) : FaultCause.emptySection kind ≠ .integerTooLong :=
      (by rintro ⟨⟩)
    cases kind with
    | immediate =>
      exact (Avoids.mapM fun _ hc => avoids_immediateCommand (h.of_flatMap hc)).bind fun list =>
        (avoids_filled (hfilled _) list).bind fun _ => .ok _
    | hardware =>
      exact (Avoids.mapM fun _ hc => avoids_hardwareCommand (h.of_flatMap hc)).bind fun list =>
        (avoids_filled (hfilled _) list).bind fun _ => .ok _

theorem avoids_gather (parts : List Part) : Avoids (gather parts) := by
  unfold gather
  split
  · exact .throw (by rintro ⟨⟩)
  · exact .ok _

end OfOutline

namespace Document

variable {validate : Bool} {text : List Char} {outline : Source.Outline}

theorem avoids_ofOutline (h : OfOutline.AreShort (outline.items.flatMap Source.Item.tokens))
    (hlists : OfOutline.ListsShort (outline.items.flatMap OfOutline.itemLists)) :
    OfOutline.Avoids (ofOutline validate outline) := by
  refine OfOutline.Avoids.bind (.mapM fun item hitem => ?_) OfOutline.avoids_gather
  exact OfOutline.avoids_part (h.of_flatMap hitem) fun token hmem =>
    hlists token (List.mem_flatMap.2 ⟨item, hitem, hmem⟩)

/-- The tokens that an outline keeps are pieces of its text. -/
theorem areShort_of_read (h : ¬HasLongRun text) (hread : Source.Outline.read text = .ok outline) :
    OfOutline.AreShort (outline.items.flatMap Source.Item.tokens) := by
  obtain ⟨-, taken, c, htaken, hsublist⟩ := (Source.Outline.ends_read text).result outline hread
  have hterminated : ¬HasLongRun (Lines.terminate text) := by
    unfold Lines.terminate
    split
    · exact h
    · rw [Decimal.hasLongRun_append_cons (by decide)]
      exact fun hlong => hlong.elim h (Decimal.not_hasLongRun_of_length (by decide))
  exact fun token hmem hlong =>
    hterminated (hlong.mono (htaken.isInfix token (hsublist.subset hmem)))

/-- Whatever a text is, reading it gives a document that can be written and read back, an error that
names what the grammar expects, or a fault. Its tree is grammatical if it has one. The fault is an
integer that is too long only if the text has a run of too many digits, or one that it spells in a
string of a declaration. -/
theorem ofText_closed (validate : Bool) (text : List Char) :
    (∀ outline, Source.Outline.read text = .ok outline → outline.tree.Grammatical) ∧
    match ofText validate text with
    | .ok d => d.Readable validate
    | .error (.grammar e) => e.expected ≠ []
    | .error (.fault f) => f.cause = .integerTooLong → HasLongRun text ∨
        ∃ outline, Source.Outline.read text = .ok outline ∧
          ∃ token ∈ outline.items.flatMap OfOutline.itemLists,
            ∃ s, OfOutline.string token = .ok s ∧ HasLongRun s.toList := by
  have hends := Source.Outline.ends_read text
  refine ⟨fun outline hread => (hends.result outline hread).1, ?_⟩
  cases hdocument : ofText validate text with
  | ok d => exact readable_of_ofText hdocument
  | error e =>
    unfold ofText at hdocument
    cases hread : Source.Outline.read text with
    | error e =>
      rw [hread] at hdocument
      cases hdocument
      exact (hends.error e hread).expected_ne_nil
    | ok outline =>
      rw [hread] at hdocument
      dsimp only at hdocument
      cases hfault : ofOutline validate outline with
      | ok d => rw [hfault] at hdocument; cases hdocument
      | error f =>
        rw [hfault] at hdocument
        cases hdocument
        intro hcause
        by_contra hshort
        obtain ⟨hshort, hlists⟩ := not_or.1 hshort
        refine (avoids_ofOutline (areShort_of_read hshort hread)
          fun token hmem s hs hlong => hlists ?_).error f hfault hcause
        exact ⟨outline, rfl, token, hmem, s, hs, hlong⟩

/-! ## Digits that are escaped -/

/-- The text of a parameter that a line declares. -/
def declaring (line : List Char) : List Char :=
  String.toList "@ID \"d\"\n@INPUT_PARAMS_BEGIN\n" ++ line ++ String.toList "@INPUT_PARAMS_END\n"

/-- The fault of a declaration is that of the document. -/
theorem ofText_declaring {line : List Char} {f : Fault}
    (hline : ∀ p rest, ReadBack.InBlock .parameters p →
      ReadBack.ReadsLines p line rest (ReadBack.InBlock .parameters) fun lines =>
        ∃ items : List Source.DeclarationItem, lines = items.map .declaration ∧
          items.mapM OfOutline.declaration = .error f) :
    ofText validate (declaring line) = .error (.fault f) := by
  have hbegin : (String.toList "@ID \"d\"\n@INPUT_PARAMS_BEGIN\n") = ToText.fixed "@ID "
      ++ (ToText.quoted "d" ++ [('\n' : Char)])
      ++ (('@' : Char) :: ToText.fixed (ReadBack.blockName .parameters) ++
        ToText.fixed "_BEGIN\n") := by
    decide
  have hclose : (String.toList "@INPUT_PARAMS_END\n") =
      ('@' : Char) :: ToText.fixed (ReadBack.blockName .parameters) ++ ToText.fixed "_END\n" := by
    decide
  have hparts : declaring line = ToText.fixed "@ID " ++ (ToText.quoted "d" ++ [('\n' : Char)])
      ++ (('@' : Char) :: ToText.fixed (ReadBack.blockName .parameters) ++
        ToText.fixed "_BEGIN\n" ++ line
      ++ ('@' : Char) :: ToText.fixed (ReadBack.blockName .parameters) ++
        ToText.fixed "_END\n") := by
    refine (congrArg₂ (fun front back => front ++ line ++ back) hbegin hclose).trans ?_
    simp only [List.append_assoc]
  have hread : ReadBack.ReadsLines Place.start (declaring line) []
      (ReadBack.Anywhere ReadBack.requestOpeners) fun lines => ∃ items : List Source.Item,
        lines = items.flatMap Source.Item.lines ∧
          items.mapM (OfOutline.part validate) = .error f := by
    rw [hparts]
    refine ((@readsLines_id "d" validate _).append fun p hp =>
      ReadBack.readsLines_enclosed (S := ReadBack.InHeader) (hp ▸ Source.Place.opens_of_single rfl)
        ⟨rfl, .inr ⟨rfl, .inr rfl⟩⟩ hline).mono
      (fun p hp => ⟨false, hp.between.mono (by decide)⟩) ?_
    rintro _ ⟨_, _, rfl, ⟨items, rfl, hitems⟩, position, declarations, hfault, rfl⟩
    refine ⟨items ++ [.block position .parameters declarations], by simp, ?_⟩
    rw [List.mapM_append, hitems, List.mapM_cons, OfOutline.part, hfault]
    rfl
  have hend : Lines.terminate (declaring line) = declaring line ++ [] := by
    have hback : (String.toList "@INPUT_PARAMS_END\n").getLast? = some ('\n' : Char) := by decide
    have hlast : (declaring line).getLast? = some ('\n' : Char) :=
      List.getLast?_append.trans (congrArg (Option.or · _) hback)
    rw [Lines.terminate, hlast, List.append_nil]
    exact if_pos (by decide)
  have hfront : Source.nextLine (declaring line ++ []) = declaring line ++ [] := by
    simp only [hparts, List.append_assoc]
    exact Source.nextLine_cons (by decide) _
  obtain ⟨outline, houtline, hfault⟩ := read_of_readsLines hend rfl hfront hread
  rw [ofText, houtline]
  simp only [ofOutline, hfault, Bind.bind, Except.bind]

/-- The line of a parameter that lists values, as they stand between quotes. -/
def listing (body : List Char) : List Char :=
  String.toList "X \"\" " ++ ('"' : Char) :: (body ++ [('"' : Char), '\n'])

/-- The values that a declaration lists are those of the text that its second string stands for. -/
theorem declaration_listing {body values : List Char} {f : Fault} {name : Token}
    {quoted : List Token} (hdecode : Quoted.decode? ('"' :: (body ++ [('"' : Char)])) = some values)
    (hvalues : (Cut.split ',' values).mapM OfOutline.allowableValue = .error f)
    (hquoted : List.Forall₂
      (fun (token : Token) s => token.Is .string ('"' :: (s ++ [('"' : Char)]))) quoted
      [[], body]) : OfOutline.declaration ⟨name, quoted⟩ = .error f := by
  have hdetails := ReadBack.details_ok .nil hquoted
  rw [List.nil_append] at hdetails
  obtain ⟨empty, _, hempty, hmore, rfl⟩ := List.forall₂_cons_right_iff.1 hquoted
  obtain ⟨list, _, hlist, hnil, rfl⟩ := List.forall₂_cons_right_iff.1 hmore
  obtain rfl := List.forall₂_nil_right_iff.1 hnil
  have hstrings : [empty, list].mapM OfOutline.string = .ok ["", String.ofList values] := by
    refine mapM_eq_ok.2 (.cons ?_ (.cons ?_ .nil))
    · rw [OfOutline.string, hempty.text]
      rfl
    · rw [OfOutline.string, hlist.text, hdecode]
  have hranges : OfOutline.ranges name.position ["", String.ofList values] = .ok [] := rfl
  rw [OfOutline.declaration]
  simp only [hdetails, hstrings, hranges, OfOutline.typing, OfOutline.allowableValues, hvalues,
    Bind.bind, Except.bind]

/-- A parameter that lists values of which one is at fault is at fault itself. -/
theorem ofText_listing {body values : List Char} {f : Fault} (hbody : Quoted.IsBody body)
    (hdecode : Quoted.decode? ('"' :: (body ++ [('"' : Char)])) = some values)
    (hvalues : (Cut.split ',' values).mapM OfOutline.allowableValue = .error f) :
    ofText validate (declaring (listing body)) = .error (.fault f) := by
  have hpieces : listing body =
      String.toList "X" ++ ((([] : List (List Char)).map ((' ' : Char) :: ·)).flatten
      ++ (([[], body].map fun s => (' ' : Char) :: ('"' : Char) :: (s ++ [('"' : Char)])).flatten ++
        [('\n' : Char)])) := by
    have hfront : (String.toList "X \"\" ") =
        String.toList "X" ++ [(' ' : Char), '"', '"', ' '] := by decide
    have hline := congrArg (· ++ ('"' : Char) :: (body ++ [('"' : Char), '\n'])) hfront
    refine hline.trans ?_
    simp only [List.map_nil, List.flatten_nil, List.map_cons, List.flatten_cons, List.append_assoc,
      List.cons_append, List.nil_append, List.append_nil]
  refine ofText_declaring fun p rest hp => ?_
  rw [hpieces]
  refine ReadBack.ReadsLines.line (ReadBack.readsLine_named (by decide) (List.forall_mem_nil _)
    (List.forall_mem_cons.2 ⟨Quoted.isBody_nil, List.forall_mem_singleton.2 hbody⟩)
    ⟨by simp, by simp⟩ (hp.opens _ (by simp)) hp.words hp.1) ⟨rfl, rfl, .inr rfl⟩ ?_
  rintro _ ⟨name, named, quoted, rfl, -, hnamed, hquoted⟩
  obtain rfl := List.forall₂_nil_right_iff.1 hnamed
  refine ⟨[⟨name, quoted⟩], rfl, ?_⟩
  rw [List.mapM_cons, declaration_listing hdecode hvalues hquoted]
  rfl

/-- Digits, and one more that is escaped. -/
def escaped (digits : List Char) : List Char :=
  digits ++ String.toList "\\u0031"

theorem not_hasLongRun_escaped {digits : List Char} (hlength : digits.length ≤ Decimal.digitLimit) :
    ¬HasLongRun (declaring (listing (escaped digits))) := by
  have hescape : String.toList "\\u0031" = ('\\' : Char) :: String.toList "u0031" := by decide
  have htext : declaring (listing (escaped digits)) =
      (String.toList "@ID \"d\"\n@INPUT_PARAMS_BEGIN\n" ++ String.toList "X \"\" ") ++
        ('"' : Char) :: (digits
        ++ ('\\' : Char) :: (String.toList "u0031" ++
          ([('"' : Char), '\n'] ++ String.toList "@INPUT_PARAMS_END\n"))) := by
    unfold declaring listing escaped
    simp only [hescape, List.append_assoc, List.cons_append]
  rw [htext, Decimal.hasLongRun_append_cons (by decide), Decimal.hasLongRun_append_cons (by decide)]
  rintro (h | h | h)
  · exact Decimal.not_hasLongRun_of_length (by decide) h
  · exact Decimal.not_hasLongRun_of_length hlength h
  · exact Decimal.not_hasLongRun_of_length (by decide) h

/-- An integer of one digit too many, the last of which is escaped, is at fault. -/
theorem ofText_escaped {digits : List Char}
    (hdigits : ∀ c ∈ digits, Character.isAsciiDigit c = true)
    (hlength : digits.length = Decimal.digitLimit) :
    ofText validate (declaring (listing (escaped digits))) =
      .error (.fault ⟨.integerTooLong, none⟩) := by
  have hplain : ∀ c ∈ digits, Quoted.IsPlain c := fun c hc =>
    (ReadBack.isPlain_of_isAsciiDigit (hdigits c hc)).1
  have hbody : Quoted.IsBody (escaped digits) := by
    refine Quoted.IsBody.append hplain fun rest => ?_
    simp [Source.Terminal.cutStringTail?]
  have hdecode : Quoted.decode? (('"' : Char) :: (escaped digits ++ [('"' : Char)])) =
      some (digits ++ [('1' : Char)]) := by
    have hescape : Quoted.decodeTail? true none (String.toList "\\u0031" ++ [('"' : Char)]) =
        some ([('1' : Char)], []) := by
      decide +kernel
    rw [escaped, List.append_assoc, Quoted.decode?, Quoted.decodeTail?_run hplain hescape]
  have hall : ∀ c ∈ digits ++ [('1' : Char)], Character.isAsciiDigit c = true :=
    List.forall_mem_append.2 ⟨hdigits, List.forall_mem_singleton.2 (by decide)⟩
  have hlong : Number.read? (digits ++ [('1' : Char)]) = .error .integerTooLong :=
    Number.read?_of_digits (Spelling.isDigit_of_mem hall) (by simp [hlength])
  have hsplit : Cut.split ',' (digits ++ [('1' : Char)]) = [digits ++ [('1' : Char)]] := by
    have hcomma : (',' : Char) ∉ digits ++ [('1' : Char)] := fun hc =>
      (ReadBack.isPlain_of_isAsciiDigit (hall ',' hc)).2 rfl
    have hjoined := Cut.split_joined (List.cons_ne_nil (digits ++ [('1' : Char)]) [])
      (List.forall_mem_singleton.2 hcomma)
    rwa [ReadBack.joined_cons, ReadBack.joined_nil, List.isEmpty_nil, if_pos rfl,
      List.append_nil] at hjoined
  refine ofText_listing hbody hdecode ?_
  rw [hsplit, List.mapM_cons, OfOutline.allowableValue, OfOutline.number?, hlong]
  rfl

/-- So a text can be at fault for a long integer without a long run of digits. -/
theorem ofText_escaped_ones :
    let text := declaring (listing (escaped (List.replicate 4300 ('1' : Char))))
    ofText true text = .error (.fault ⟨.integerTooLong, none⟩) ∧ ¬HasLongRun text :=
  ⟨ofText_escaped (fun _ hc => List.eq_of_mem_replicate hc ▸ rfl) List.length_replicate,
    not_hasLongRun_escaped (List.length_replicate ▸ by decide)⟩

end Document

end CommandSequence
