import CommandSequence.Json.Writer
import CommandSequence.Proofs.Json.Value
import CommandSequence.Proofs.Number.Written
import CommandSequence.Proofs.Text.Quoted

/-!
# The notation of JSON values

`Denotes` says which values texts denote, after the grammar of the JSON standard: one rule for each
kind of value, for the items of an array and for the members of an object. A later member replaces
an earlier one of the same key. Spacing is of blanks, tabs and line feeds; it may stand on either
side of every bracket, comma and colon and belongs to no value.

The relation has two parameters that narrow it: the spacing that may stand beside a colon, and the
spellings of numbers. What is written denotes the value that was written (`denotes_writeAt`).
-/

namespace CommandSequence.Json

/-- What may stand between two tokens: blanks, tabs and line feeds. -/
def IsSpacing (ws : List Char) : Prop :=
  ∀ c ∈ ws, c ∈ [(' ' : Char), '\t', '\n']

/-- Spacing that stays on its line: blanks and tabs. -/
def IsBlanks (ws : List Char) : Prop :=
  ∀ c ∈ ws, c ∈ [(' ' : Char), '\t']

-- By the characters of the text: there are instances that go through every character there is.
instance (ws : List Char) : Decidable (IsSpacing ws) :=
  List.decidableBAll _ ws

instance (ws : List Char) : Decidable (IsBlanks ws) :=
  List.decidableBAll _ ws

/-- What a text is to denote: a value, a member, or what stands between the brackets of an array or
object that is not empty. -/
inductive Phrase where
  | value (v : Value)
  | items (vs : List Value)
  | member (m : String × Value)
  | members (ms : List (String × Value))

/-- A text denotes a phrase, with such spacing `beside` colons and with numbers in such spellings as
the relation `admits`. -/
inductive Denotes (beside : List Char → Prop) (admits : Spelling → Prop) :
    List Char → Phrase → Prop
  | null : Denotes beside admits (String.toList "null") (.value .null)
  | boolean (b : Bool) :
    Denotes beside admits (if b then String.toList "true" else String.toList "false")
      (.value (.boolean b))
  | number {s : Spelling} (hs : s.Proper) (h : admits s) :
    Denotes beside admits s.text (.value (.number s.number))
  | string {body s : List Char} (h : Quoted.Denotes body s) :
    Denotes beside admits ('"' :: (body ++ [('"' : Char)])) (.value (.string (String.ofList s)))
  | emptyArray {ws : List Char} (hws : IsSpacing ws) :
    Denotes beside admits ('[' :: (ws ++ [(']' : Char)])) (.value (.array []))
  | array {ws text : List Char} {vs : List Value} (hws : IsSpacing ws)
    (h : Denotes beside admits text (.items vs)) :
    Denotes beside admits ('[' :: (ws ++ (text ++ [(']' : Char)]))) (.value (.array vs))
  | emptyObject {ws : List Char} (hws : IsSpacing ws) :
    Denotes beside admits ('\x7b' :: (ws ++ [('\x7d' : Char)])) (.value (.object []))
  | object {ws text : List Char} {ms : List (String × Value)} (hws : IsSpacing ws)
    (h : Denotes beside admits text (.members ms)) :
    Denotes beside admits ('\x7b' :: (ws ++ (text ++ [('\x7d' : Char)])))
      (.value (.object (Dictionary.ofList ms)))
  | lastItem {text ws : List Char} {v : Value} (h : Denotes beside admits text (.value v))
    (hws : IsSpacing ws) : Denotes beside admits (text ++ ws) (.items [v])
  | moreItems {text ws ws' more : List Char} {v : Value} {vs : List Value}
    (h : Denotes beside admits text (.value v)) (hws : IsSpacing ws) (hws' : IsSpacing ws')
    (hmore : Denotes beside admits more (.items vs)) :
    Denotes beside admits (text ++ (ws ++ (',' : Char) :: (ws' ++ more))) (.items (v :: vs))
  | member {body s ws ws' text : List Char} {v : Value} (hkey : Quoted.Denotes body s)
    (hws : beside ws) (hws' : beside ws') (h : Denotes beside admits text (.value v)) :
    Denotes beside admits
      (('"' : Char) :: (body ++ ('"' : Char) :: (ws ++ (':' : Char) :: (ws' ++ text))))
      (.member (String.ofList s, v))
  | lastMember {text ws : List Char} {m : String × Value}
    (h : Denotes beside admits text (.member m)) (hws : IsSpacing ws) :
    Denotes beside admits (text ++ ws) (.members [m])
  | moreMembers {text ws ws' more : List Char} {m : String × Value} {ms : List (String × Value)}
    (h : Denotes beside admits text (.member m)) (hws : IsSpacing ws) (hws' : IsSpacing ws')
    (hmore : Denotes beside admits more (.members ms)) :
    Denotes beside admits (text ++ (ws ++ (',' : Char) :: (ws' ++ more))) (.members (m :: ms))

/-! ## What is written -/

variable {indent : Indent} {level : Nat} {ws : List Char}

theorem isSpacing_nil : IsSpacing [] :=
  List.forall_mem_nil _

theorem isSpacing_break (indent : Indent) (level : Nat) : IsSpacing (indent.break level) := by
  cases indent with
  | none => exact isSpacing_nil
  | some width =>
    refine List.forall_mem_cons.2 ⟨by decide, fun c hc => ?_⟩
    rw [List.eq_of_mem_replicate hc]
    decide

/-- Two items are separated by a comma and spacing. -/
theorem exists_spacing (indent : Indent) (level : Nat) :
    ∃ ws, indent.separator level = (',' : Char) :: ws ∧ IsSpacing ws := by
  cases indent with
  | none => exact ⟨[' '], rfl, by decide⟩
  | some width => exact ⟨_, rfl, isSpacing_break (some width) level⟩

/-- The text of a finite number in JSON is its text anywhere. -/
theorem literal_eq_writeNumber {n : Number} (hfits : n.Fits false) (hfinite : n.isFinite = true) :
    n.literal = .ok (writeNumber n) := by
  cases n with
  | int n => rw [Number.literal, if_pos hfits.1, writeNumber]
  | float x =>
    rw [Number.literal, if_pos (show x.isFinite = true from hfinite)]
    cases x with
    | finite => rfl
    | infinite => cases hfinite
    | nan => cases hfinite

theorem denotes_writeNumber {n : Number} (hfits : n.Fits false) (hfinite : n.isFinite = true) :
    Denotes IsBlanks Spelling.IsShort (writeNumber n) (.value (.number n)) := by
  obtain ⟨s, htext, hs, hread⟩ := Number.exists_spelling (literal_eq_writeNumber hfits hfinite)
  rw [← htext] at hread ⊢
  obtain ⟨hshort, rfl⟩ := (s.read?_text_iff hs).1 hread
  exact .number hs hshort

theorem denotes_string (s : String) :
    Denotes IsBlanks Spelling.IsShort (Quoted.encode s.toList) (.value (.string s)) := by
  have h : Denotes IsBlanks Spelling.IsShort _ _ := .string (Quoted.denotes_encode s.toList)
  rwa [String.ofList_toList] at h

theorem denotes_items {item : Value} {more : List Value}
    (h : ∀ v ∈ item :: more, Denotes IsBlanks Spelling.IsShort (v.writeAt indent level) (.value v))
    (hws : IsSpacing ws) :
    Denotes IsBlanks Spelling.IsShort
      (item.writeAt indent level ++ (Value.writeItems indent level more ++ ws))
      (.items (item :: more)) := by
  obtain ⟨hitem, hmore⟩ := List.forall_mem_cons.1 h
  induction more generalizing item with
  | nil => exact .lastItem hitem hws
  | cons next more ih =>
    obtain ⟨gap, hseparator, hgap⟩ := exists_spacing indent level
    rw [Value.writeItems, hseparator, List.append_assoc, List.append_assoc, List.cons_append]
    obtain ⟨hnext, hrest⟩ := List.forall_mem_cons.1 hmore
    exact .moreItems hitem isSpacing_nil hgap (ih hmore hnext hrest)

theorem denotes_member {m : String × Value}
    (h : Denotes IsBlanks Spelling.IsShort (m.2.writeAt indent level) (.value m.2)) :
    Denotes IsBlanks Spelling.IsShort
      (Quoted.encode m.1.toList ++ (':' : Char) :: (' ' : Char) :: m.2.writeAt indent level)
        (.member m) := by
  have hmember := Denotes.member (Quoted.denotes_encode m.1.toList)
    (show IsBlanks [] by decide) (show IsBlanks [' '] by decide) h
  rw [String.ofList_toList] at hmember
  simpa [Quoted.encode] using hmember

theorem denotes_members {m : String × Value} {more : List (String × Value)}
    (h : ∀ x ∈ m :: more,
      Denotes IsBlanks Spelling.IsShort (x.2.writeAt indent level) (.value x.2))
    (hws : IsSpacing ws) :
    Denotes IsBlanks Spelling.IsShort
      (Quoted.encode m.1.toList ++ (':' : Char) :: (' ' : Char) :: m.2.writeAt indent level ++
        (Value.writeMembers indent level more ++ ws)) (.members (m :: more)) := by
  obtain ⟨hfirst, hmore⟩ := List.forall_mem_cons.1 h
  induction more generalizing m with
  | nil => exact .lastMember (denotes_member hfirst) hws
  | cons next more ih =>
    obtain ⟨gap, hseparator, hgap⟩ := exists_spacing indent level
    obtain ⟨hnext, hrest⟩ := List.forall_mem_cons.1 hmore
    have hall := Denotes.moreMembers (denotes_member hfirst) isSpacing_nil hgap
      (ih hmore hnext hrest)
    simpa [Value.writeMembers, hseparator] using hall

/-- The text of a sound value with finite numbers denotes it. -/
theorem denotes_writeAt {v : Value} (h : v.Sound fun n => n.Fits false ∧ n.isFinite = true) :
    Denotes IsBlanks Spelling.IsShort (v.writeAt indent level) (.value v) := by
  induction h generalizing level with
  | null => exact .null
  | boolean b =>
    cases b with
    | false => exact .boolean false
    | true => exact .boolean true
  | number h => exact denotes_writeNumber h.1 h.2
  | string s => exact denotes_string s
  | @array items _ ih =>
    cases items with
    | nil => exact .emptyArray isSpacing_nil
    | cons item more =>
      have hitems := denotes_items (fun v hv => @ih v hv (level + 1)) (isSpacing_break indent level)
      have harray := Denotes.array (isSpacing_break indent (level + 1)) hitems
      simpa [Value.writeAt] using harray
  | @object members hkeys _ ih =>
    cases members with
    | nil => exact .emptyObject isSpacing_nil
    | cons m more =>
      have hmembers := denotes_members (fun x hx => @ih x hx (level + 1))
        (isSpacing_break indent level)
      have hobject := Denotes.object (isSpacing_break indent (level + 1)) hmembers
      rw [Dictionary.ofList_of_distinct hkeys] at hobject
      simpa [Value.writeAt] using hobject

end CommandSequence.Json
