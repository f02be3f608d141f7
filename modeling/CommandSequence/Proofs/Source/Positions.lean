import CommandSequence.Proofs.Source.Trees
import Mathlib.Data.List.Flatten

/-!
# Where tokens and errors stand

A position has an offset and the line and the column of that offset. A cursor that starts at the
beginning of a text stays at the position of what is left of it (`Position.Begins`), however many
line feeds its tokens span, so each token taken lies where its position says, behind those before it
(`Cursor.Takes.places`). The end of the text borrows the position of the last token, so an error
never stands behind the text. The leaves of a tree are the tokens of its items in their order
(`Outline.leaves_tree`), and so the tree of a text lies in the text (`Outline.places_read`).
-/

namespace CommandSequence.Source

variable {text rest before piece : List Char} {p : Position} {token : Token} {taken : List Token}

/-! ## Lines and columns -/

/-- The count of characters up to the last of so many line feeds, counted from the front. -/
def pastFeeds : (feeds : Nat) → List Char → Nat
  | 0, _ => 0
  | _ + 1, [] => 0
  | feeds + 1, c :: rest =>
    (if c == '\n' then pastFeeds feeds rest else pastFeeds (feeds + 1) rest) + 1

/-- The offset at which a line of the text begins, the lines counting from 1. -/
def lineStart (line : Nat) (text : List Char) : Nat :=
  pastFeeds (line - 1) text

@[simp] theorem pastFeeds_zero (text : List Char) : pastFeeds 0 text = 0 := by
  cases text <;> rfl

/-- The line feeds of a piece at the front are all in this piece. -/
theorem pastFeeds_count_le (before rest : List Char) :
    pastFeeds (before.count ('\n' : Char)) (before ++ rest) ≤ before.length := by
  induction before with
  | nil => simp
  | cons c before ih =>
    by_cases hc : c = '\n'
    · simpa [hc, pastFeeds] using ih
    · rw [List.count_cons_of_ne hc, List.cons_append, List.length_cons]
      cases hcount : before.count ('\n' : Char) with
      | zero => simp
      | succ feeds =>
        rw [hcount] at ih
        simpa [pastFeeds, hc] using ih

namespace Position

theorem advance_append (p : Position) (piece rest : List Char) :
    p.advance (piece ++ rest) = (p.advance piece).advance rest :=
  List.foldl_append

theorem offset_step (p : Position) (c : Char) : (p.step c).offset = p.offset + 1 := by
  unfold step
  split <;> rfl

theorem offset_advance (p : Position) (piece : List Char) :
    (p.advance piece).offset = p.offset + piece.length := by
  induction piece generalizing p with
  | nil => rfl
  | cons c piece ih =>
    rw [advance, List.foldl_cons, ← advance, ih, offset_step, List.length_cons]
    omega

theorem line_advance (p : Position) (piece : List Char) :
    (p.advance piece).line = p.line + piece.count ('\n' : Char) := by
  induction piece generalizing p with
  | nil => rfl
  | cons c piece ih =>
    rw [advance, List.foldl_cons, ← advance, ih]
    by_cases hc : c = '\n'
    · simp [step, hc]
      omega
    · simp [step, hc]

/-- Columns count from the line feed before them, or on from the column where the piece begins. -/
theorem column_advance (p : Position) (piece rest : List Char) :
    (p.advance piece).column + pastFeeds (piece.count ('\n' : Char)) (piece ++ rest) =
      piece.length + if piece.count ('\n' : Char) = 0 then p.column else 1 := by
  induction piece generalizing p with
  | nil => simp [advance]
  | cons c piece ih =>
    have hih := ih (p.step c)
    rw [advance, List.foldl_cons, ← advance, List.cons_append, List.length_cons]
    by_cases hc : c = '\n'
    · -- behind a line feed columns count from 1, whatever the column was
      subst hc
      have hcolumn : (p.step '\n').column = 1 := rfl
      simp only [hcolumn, ite_self] at hih
      simp only [List.count_cons_self, pastFeeds, beq_self_eq_true, if_true, Nat.add_eq_zero_iff,
        Nat.one_ne_zero, and_false, if_false]
      omega
    · have hcolumn : (p.step c).column = p.column + 1 := by simp [step, hc]
      rw [hcolumn] at hih
      rw [List.count_cons_of_ne hc]
      cases hcount : piece.count ('\n' : Char) with
      | zero =>
        simp only [hcount, pastFeeds_zero, if_true] at hih ⊢
        omega
      | succ feeds =>
        simp only [hcount, Nat.succ_ne_zero, if_false] at hih
        simp only [pastFeeds, beq_iff_eq, hc, if_false, Nat.succ_ne_zero]
        omega

/-- The position stands in the text: its line and its column are those of its offset. -/
structure Within (p : Position) (text : List Char) : Prop where
  offset_lt : p.offset < text.length
  line_eq : p.line = 1 + (text.take p.offset).count ('\n' : Char)
  lineStart_le : lineStart p.line text ≤ p.offset
  column_eq : p.column = p.offset - lineStart p.line text + 1

/-- The rest of the text begins at the position. -/
def Begins (p : Position) (rest text : List Char) : Prop :=
  ∃ before, before ++ rest = text ∧ p = origin.advance before

theorem begins_origin (text : List Char) : origin.Begins text text :=
  ⟨[], rfl, rfl⟩

namespace Begins

theorem advance (h : p.Begins (piece ++ rest) text) : (p.advance piece).Begins rest text := by
  obtain ⟨before, htext, rfl⟩ := h
  exact ⟨before ++ piece, by rw [List.append_assoc, htext], (advance_append ..).symm⟩

theorem drop_eq (h : p.Begins rest text) : text.drop p.offset = rest := by
  obtain ⟨before, rfl, rfl⟩ := h
  rw [offset_advance, origin, Nat.zero_add, List.drop_left]

theorem within (h : p.Begins rest text) (hrest : rest ≠ []) : p.Within text := by
  obtain ⟨before, rfl, rfl⟩ := h
  have hoffset : (origin.advance before).offset = before.length := by
    rw [offset_advance, origin, Nat.zero_add]
  have hline : (origin.advance before).line = 1 + before.count ('\n' : Char) := line_advance ..
  have hstart : lineStart (origin.advance before).line (before ++ rest) =
      pastFeeds (before.count ('\n' : Char)) (before ++ rest) := by
    rw [lineStart, hline, Nat.add_sub_cancel_left]
  have hpast := pastFeeds_count_le before rest
  have hcolumn := column_advance origin before rest
  have hfirst : origin.column = 1 := rfl
  simp only [hfirst, ite_self] at hcolumn
  refine ⟨?_, ?_, ?_, ?_⟩
  · have := List.length_pos_of_ne_nil hrest
    rw [hoffset, List.length_append]
    omega
  · rw [hoffset, hline, List.take_left]
  · rw [hstart, hoffset]
    exact hpast
  · rw [hstart, hoffset]
    omega

end Begins

end Position

/-! ## Tokens in a text -/

/-- The token stands in the text at the offset that its line and its column give. -/
structure Token.Lies (token : Token) (text : List Char) : Prop where
  within : token.position.Within text
  here : token.text <+: text.drop (lineStart token.position.line text + token.position.column - 1)

/-- The first token begins and ends before the second begins. -/
structure Token.Precedes (token token' : Token) : Prop where
  begins : token.position.offset < token'.position.offset
  ends : token.position.offset + token.text.length ≤ token'.position.offset

theorem Token.lies_of_begins (h : token.position.Begins (token.text ++ rest) text)
    (hfilled : token.text ≠ []) : token.Lies text := by
  have hwithin := h.within (List.append_ne_nil_of_left_ne_nil hfilled rest)
  refine ⟨hwithin, ?_⟩
  have hoffset : lineStart token.position.line text + token.position.column - 1 =
      token.position.offset := by
    have := hwithin.lineStart_le
    have := hwithin.column_eq
    omega
  rw [hoffset, h.drop_eq]
  exact List.prefix_append ..

namespace Cursor

variable {c c' : Cursor} {kinds : List Terminal}

/-- The cursor stands in the text at the position of what is left of it, and the last token began at
a position of the text. -/
structure Stands (c : Cursor) (text : List Char) : Prop where
  begins : c.position.Begins c.rest text
  last : c.last.Within text

theorem stands_ofText (h : text ≠ []) : (ofText text).Stands text :=
  ⟨Position.begins_origin text, (Position.begins_origin text).within h⟩

/-- Blanks are passed without leaving the text. -/
theorem Stands.skipBlanks (h : c.Stands text) :
    c.skipBlanks.position.Begins c.skipBlanks.rest text := by
  refine Position.Begins.advance ?_
  rw [Cursor.skipBlanks, List.takeWhile_append_dropWhile]
  exact h.begins

/-- A token is taken where it lies: behind the cursor before it, in front of the cursor after it. -/
theorem Stands.next (h : c.Stands text) (hnext : c.next kinds = .ok (some (token, c'))) :
    c'.Stands text ∧ token.Lies text ∧ c.position.offset ≤ token.position.offset ∧
      token.position.offset + token.text.length = c'.position.offset := by
  have hpasses := passes_of_next hnext
  -- the token begins behind the blanks, and where it begins is what the end of the text would
  -- borrow
  have hplaces : token.position = c.skipBlanks.position ∧
      c'.position = token.position.advance token.text ∧ c'.last = token.position := by
    simp only [Cursor.next] at hnext
    split at hnext
    · cases hnext
    · split at hnext
      · cases hnext
        exact ⟨rfl, rfl, rfl⟩
      · cases hnext
  obtain ⟨hposition, hafter, hlast⟩ := hplaces
  have hbegins : token.position.Begins (token.text ++ c'.rest) text := by
    rw [hposition, ← hpasses.text]
    exact h.skipBlanks
  have hlies := Token.lies_of_begins hbegins hpasses.filled
  refine ⟨⟨hafter ▸ hbegins.advance, hlast ▸ hlies.within⟩, hlies, ?_, ?_⟩
  · rw [hposition, Cursor.skipBlanks, Position.offset_advance]
    exact Nat.le_add_right ..
  · rw [hafter, Position.offset_advance]

/-- Tokens taken one after the other lie in the text behind the first cursor, each behind those
before it. -/
theorem Takes.places (h : c.Takes taken c') (hc : c.Stands text) :
    c'.Stands text ∧
    (∀ token ∈ taken, token.Lies text ∧ c.position.offset ≤ token.position.offset) ∧
      taken.Pairwise Token.Precedes := by
  induction h with
  | nil => exact ⟨hc, List.forall_mem_nil _, .nil⟩
  | @cons c c₁ c' kinds token taken hnext _ ih =>
    obtain ⟨hstands, hlies, hbehind, hends⟩ := hc.next hnext
    obtain ⟨hlast, hplaces, hordered⟩ := ih hstands
    have hlength := List.length_pos_of_ne_nil (passes_of_next hnext).filled
    refine ⟨hlast, List.forall_mem_cons.2 ⟨⟨hlies, hbehind⟩, fun token' hmem => ?_⟩,
      .cons (fun token' hmem => ?_) hordered⟩
    · obtain ⟨hlies', hbehind'⟩ := hplaces token' hmem
      exact ⟨hlies', by omega⟩
    · have hbehind' := (hplaces token' hmem).2
      exact ⟨by omega, by omega⟩

/-- An error stands in the text. -/
theorem Stops.within {e : SyntaxError} (h : c.Stops e) (hc : c.Stands text) :
    e.position.Within text := by
  obtain ⟨taken, c', levels, htaken, -, htake⟩ := h
  have hstands := (htaken.places hc).1
  cases misses_of_take htake with
  | front hrest => exact hstands.skipBlanks.within hrest
  | token hnext => exact (hstands.next hnext).2.1.within
  | ending => exact hstands.last

end Cursor

/-! ## The leaves of trees -/

namespace Tree

mutual

/-- The tokens of a tree, from the first leaf to the last. -/
def leaves : Tree → List Token
  | .leaf token => [token]
  | .node _ _ children => leavesOfAll children

@[inherit_doc leaves]
def leavesOfAll : List Tree → List Token
  | [] => []
  | tree :: rest => leaves tree ++ leavesOfAll rest

end

theorem leavesOfAll_eq (trees : List Tree) : leavesOfAll trees = trees.flatMap leaves := by
  induction trees with
  | nil => rfl
  | cons tree trees ih => rw [leavesOfAll, ih, List.flatMap_cons]

@[simp] theorem leaves_leaf (token : Token) : (leaf token).leaves = [token] := by
  rw [leaves]

@[simp] theorem leaves_node (rule : Literal) (position : Option Position) (children : List Tree) :
    (node rule position children).leaves = children.flatMap leaves := by
  rw [leaves, leavesOfAll_eq]

@[simp] theorem leaves_wrapped (rule : Literal) (token : Token) :
    (wrapped rule token).leaves = [token] := by
  simp [wrapped]

@[simp] theorem leaves_ofSingle (token : Token) : (ofSingle token).leaves = [token] :=
  leaves_wrapped ..

@[simp] theorem leaves_ofTag (token : Token) : (ofTag token).leaves = [token] :=
  leaves_wrapped ..

@[simp] theorem leaves_ofDescription (d : Option Token) :
    (ofDescription d).flatMap leaves = d.toList := by
  cases d <;> simp [ofDescription]

/-- Constructs in a row have the leaves of each. -/
theorem leaves_map {α : Type} {f : α → Tree} {g : α → List Token} (h : ∀ a, (f a).leaves = g a)
    (l : List α) : (l.map f).flatMap leaves = l.flatMap g := by
  rw [List.flatMap_map]
  exact List.flatMap_congr fun a _ => h a

mutual

@[simp] theorem leaves_ofValue : (v : Value) → (ofValue v).leaves = v.tokens
  | .scalar token => by simp [ofValue, Value.tokens]
  | .array _ items => by simp [ofValue, Value.tokens, leaves_ofItems items]
  | .object _ members => by simp [ofValue, Value.tokens, leaves_ofMembers members]

theorem leaves_ofItems : (items : List Value) →
    (ofItems items).flatMap leaves = Value.tokensOfItems items
  | [] => rfl
  | item :: rest => by
    simp [ofItems, Value.tokensOfItems, leaves_ofValue item, leaves_ofItems rest]

theorem leaves_ofMembers : (members : List (Token × Value)) →
    (ofMembers members).flatMap leaves = Value.tokensOfMembers members
  | [] => rfl
  | (key, value) :: rest => by
    simp [ofMembers, Value.tokensOfMembers, leaves_ofValue value, leaves_ofMembers rest]

end

@[simp] theorem leaves_ofArgument (a : Argument) : (ofArgument a).leaves = a.tokens := by
  cases a with
  | single token => simp [ofArgument, Argument.tokens]
  | group position items =>
    rw [ofArgument, leaves_node, leaves_map leaves_ofSingle, List.flatMap_singleton']
    rfl

@[simp] theorem leaves_ofArguments (arguments : List Argument) :
    (ofArguments arguments).leaves = arguments.flatMap Argument.tokens := by
  rw [ofArguments, leaves_node, leaves_map leaves_ofArgument]

@[simp] theorem leaves_ofMetadata (line : MetadataLine) :
    (ofMetadata line).leaves = line.tokens := by
  simp [ofMetadata, MetadataLine.tokens]

@[simp] theorem leaves_ofDirective (d : Directive) : (ofDirective d).leaves = d.tokens := by
  cases d <;> simp [ofDirective, Directive.tokens]

@[simp] theorem leaves_ofStep (step : StepItem) : (ofStep step).leaves = step.tokens := by
  simp [ofStep, StepItem.tokens, StepLine.tokens, leaves_map leaves_ofDirective]

@[simp] theorem leaves_ofTiming (timing : Timing) : (ofTiming timing).leaves = timing.tokens := by
  cases timing <;> simp [ofTiming, Timing.tokens]

@[simp] theorem leaves_ofRequest (request : RequestItem) :
    (ofRequest request).leaves = request.tokens := by
  simp [ofRequest, RequestItem.tokens, RequestLine.tokens, leaves_map leaves_ofStep,
    leaves_map leaves_ofMetadata]

@[simp] theorem leaves_ofDeclaration (item : DeclarationItem) :
    (ofDeclaration item).leaves = item.tokens := by
  rw [ofDeclaration, leaves_node, leaves_map leaves_leaf, List.flatMap_singleton']
  rfl

/-- The tree of a hardware command leaves its arguments out. -/
theorem leaves_ofCommand (kind : Section) (command : CommandItem) :
    (ofCommand kind command).leaves.Sublist command.tokens := by
  cases kind with
  | immediate =>
    simp [ofCommand, CommandItem.tokens, CommandLine.tokens, leaves_map leaves_ofMetadata]
  | hardware =>
    simp [ofCommand, CommandItem.tokens, CommandLine.tokens, leaves_map leaves_ofMetadata]

theorem leaves_ofItem (item : Item) : (ofItem item).leaves.Sublist item.tokens := by
  cases item with
  | block _ block declarations =>
    simp only [ofItem, leaves_node, leaves_map leaves_ofDeclaration]
    exact .refl _
  | «section» _ kind commands =>
    simp only [ofItem, leaves_node, List.flatMap_map]
    exact .flatMap_right commands fun command _ => leaves_ofCommand kind command
  | _ => simp [ofItem, Item.tokens]

end Tree

namespace Outline

/-- The leaves of a tree are tokens of its items, in the same order. -/
theorem leaves_tree (outline : Outline) :
    outline.tree.leaves.Sublist (outline.items.flatMap Item.tokens) := by
  rw [tree, Tree.leaves_node, List.flatMap_map]
  exact .flatMap_right outline.items fun item _ => Tree.leaves_ofItem item

/-- Whatever a text is, with a line feed at its end an error stands in it, in front of a character;
or the leaves of its tree lie in it, each where its line and its column say, one behind the
other. -/
theorem places_read (text : List Char) :
    match read text with
    | .error e => e.position.Within (Lines.terminate text)
    | .ok outline => (∀ token ∈ outline.tree.leaves, token.Lies (Lines.terminate text)) ∧
        outline.tree.leaves.Pairwise Token.Precedes := by
  have hfilled : Lines.terminate text ≠ [] := by
    unfold Lines.terminate
    split
    · next hlast => exact fun hnil => by simp [hnil] at hlast
    · exact List.append_ne_nil_of_right_ne_nil text (by decide)
  have hstands := Cursor.stands_ofText hfilled
  have hends := ends_read text
  cases hread : read text with
  | error e => exact (hends.error e hread).within hstands
  | ok outline =>
    obtain ⟨-, taken, c, htaken, hsublist⟩ := hends.result outline hread
    obtain ⟨-, hlies, hordered⟩ := htaken.places hstands
    have hleaves := outline.leaves_tree.trans hsublist
    exact ⟨fun token hmem => (hlies token (hleaves.subset hmem)).1, hordered.sublist hleaves⟩

/-- The line feeds in front of an error are one token, which spans two lines. -/
example : (match read (String.toList "@ID \"a\"\n \n  ]") with
    | .error e => some e.position
    | .ok _ => none) = some ⟨12, 3, 3⟩ := by decide

end Outline

end CommandSequence.Source
