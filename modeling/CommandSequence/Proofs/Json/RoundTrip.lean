import CommandSequence.Json.Reader
import CommandSequence.Proofs.Json.Grammar

/-!
# Reading written JSON back

A sound value whose integers and depth the reader admits is read back from its text, in every layout
(`read_write`). The induction is on soundness; its statement `ReadsBack` lets blanks stand before
the text of the value and anything after it that does not continue a number. Fuel is counted against
the length of the text: every array and object spends two units on each of its brackets.
-/

namespace CommandSequence.Json

open Character

variable {d : Demands} {indent : Indent} {level fuel : Nat} {ws rest : List Char}

/-! ## Blanks -/

theorem skipSpace_blank {c : Char} (hws : ∀ c ∈ ws, isSpace c = true) (hc : isSpace c = false) :
    skipSpace (ws ++ c :: rest) = c :: rest :=
  dropWhile_run hws fun _ h => by cases h; exact hc

theorem skipSpace_cons {c : Char} (hc : isSpace c = false) : skipSpace (c :: rest) = c :: rest := by
  simp [skipSpace, hc]

theorem isSpace_of_isSpacing (h : IsSpacing ws) : ∀ c ∈ ws, isSpace c = true := by
  have hspace : ∀ c ∈ [(' ' : Char), '\t', '\n'], isSpace c = true :=
    List.all_eq_true.1 (by decide)
  exact fun c hc => hspace c (h c hc)

theorem isSpace_break (indent : Indent) (level : Nat) :
    ∀ c ∈ indent.break level, isSpace c = true :=
  isSpace_of_isSpacing (isSpacing_break indent level)

/-- Two items are separated by a comma and blanks. -/
theorem exists_separator (indent : Indent) (level : Nat) :
    ∃ ws, indent.separator level = (',' : Char) :: ws ∧ ∀ c ∈ ws, isSpace c = true := by
  obtain ⟨ws, hseparator, hws⟩ := exists_spacing indent level
  exact ⟨ws, hseparator, isSpace_of_isSpacing hws⟩

theorem endsNumber_of_isSpace {c : Char} (h : isSpace c = true) : EndsNumber (c :: rest) := by
  simp only [isSpace, Bool.or_eq_true, beq_iff_eq] at h
  rcases h with ((rfl | rfl) | rfl) | rfl
  all_goals exact endsNumber_cons (by decide) (by decide) (by decide)

/-- Blanks, or what follows them, end a number. -/
theorem endsNumber_blank (hws : ∀ c ∈ ws, isSpace c = true) (hrest : EndsNumber rest) :
    EndsNumber (ws ++ rest) := by
  cases ws with
  | nil => exact hrest
  | cons c ws => exact endsNumber_of_isSpace (hws c (List.mem_cons_self ..))

/-! ## Single tokens -/

/-- The words, letter by letter. -/
theorem readWord?_eq (text : List Char) : readWord? text =
    ([(['n', 'u', 'l', 'l'], .null), (['t', 'r', 'u', 'e'], .boolean true),
      (['f', 'a', 'l', 's', 'e'], .boolean false), (['N', 'a', 'N'], .number (.float .nan)),
      (['I', 'n', 'f', 'i', 'n', 'i', 't', 'y'], .number (.float (.infinite false))),
      (['-', 'I', 'n', 'f', 'i', 'n', 'i', 't', 'y'], .number (.float (.infinite true)))] :
      List (List Char × Value)).findSome? fun (word, value) =>
        (afterWord? word text).map fun left => (value, left) := by
  simp only [readWord?, List.findSome?]
  rfl

/-- No number is one of the words. -/
theorem readWord?_text {s : Spelling} (hs : s.Proper) (rest : List Char) :
    readWord? (s.text ++ rest) = none := by
  obtain ⟨c, digits, hwhole⟩ := List.exists_cons_of_ne_nil hs.whole.ne_nil
  have hc : isAsciiDigit c = true := hs.whole.digit c (by rw [hwhole]; exact List.mem_cons_self ..)
  have hne (x : Char) (hx : isAsciiDigit x = false) : x ≠ c := by
    rintro rfl
    rw [hc] at hx
    cases hx
  simp only [readWord?_eq, Spelling.text, Spelling.sign, hwhole]
  split
  · simp [afterWord?, hne 'I' rfl]
  · simp [afterWord?, hne 'n' rfl, hne 't' rfl, hne 'f' rfl, hne 'N' rfl, hne 'I' rfl, hne '-' rfl]

/-- The text of an integer or finite number begins with a digit or a minus sign, so with nothing
that has another meaning. -/
theorem head?_text {s : Spelling} (hs : s.Proper) (rest : List Char) :
    ∃ c more, s.text ++ rest = c :: more ∧ isSpace c = false ∧ c ≠ '"' ∧ c ≠ '[' ∧ c ≠ '\x7b' ∧
      c ≠ ']' := by
  obtain ⟨c, digits, hwhole⟩ := List.exists_cons_of_ne_nil hs.whole.ne_nil
  have hc : isAsciiDigit c = true := hs.whole.digit c (by rw [hwhole]; exact List.mem_cons_self ..)
  simp only [Spelling.text, Spelling.sign, hwhole]
  split
  · exact ⟨'-', _, rfl, by decide⟩
  · refine ⟨c, _, rfl, ?_⟩
    have hspace : isSpace c = false := by
      simp only [isSpace, Bool.or_eq_false_iff, beq_eq_false_iff_ne]
      refine ⟨⟨⟨?_, ?_⟩, ?_⟩, ?_⟩ <;> rintro rfl <;> cases hc
    refine ⟨hspace, ?_, ?_, ?_, ?_⟩ <;> rintro rfl <;> cases hc

/-- The number that a value is has a notation, if it is finite. -/
theorem exists_spelling_writeNumber {n : Number} (h : n.isFinite = true) :
    ∃ s : Spelling, s.text = writeNumber n ∧ s.Proper := by
  cases n with
  | int n => exact ⟨_, Spelling.text_ofInt n, Spelling.proper_ofInt n⟩
  | float x =>
    obtain ⟨s, htext, hs, -⟩ := Binary64.exists_spelling h
    refine ⟨s, ?_, hs⟩
    cases x with
    | finite => exact htext
    | infinite => cases h
    | nan => cases h

/-- What does not begin as a string, array or object is a word or else a number. -/
theorem readValue_plain {c : Char} {more : List Char} (hws : ∀ c ∈ ws, isSpace c = true)
    (hc : isSpace c = false) (hplain : c ≠ '"' ∧ c ≠ '[' ∧ c ≠ '\x7b') :
    readValue (fuel + 1) d (ws ++ c :: more) =
      match readWord? (c :: more) with
      | some found => .ok found
      | none => (readNumber d (c :: more)).map fun (n, left) => (.number n, left) := by
  rw [readValue, skipSpace_blank hws hc]
  split
  · next heq => cases heq; exact absurd rfl hplain.1
  · next heq => cases heq; exact absurd rfl hplain.2.1
  · next heq => cases heq; exact absurd rfl hplain.2.2
  · rfl

/-- The text of a value is read back wherever it stands. -/
def ReadsBack (d : Demands) (v : Value) (text : List Char) : Prop :=
  ∀ fuel ws rest, 2 * text.length ≤ fuel → (∀ c ∈ ws, isSpace c = true) → EndsNumber rest →
    readValue fuel d (ws ++ (text ++ rest)) = .ok (v, rest)

/-- A word is read back. -/
theorem readsBack_word {v : Value} (c : Char) (word : List Char) (hc : isSpace c = false)
    (hplain : c ≠ '"' ∧ c ≠ '[' ∧ c ≠ '\x7b')
    (hread : ∀ rest, readWord? (c :: word ++ rest) = some (v, rest)) :
    ReadsBack d v (c :: word) := by
  intro fuel ws rest hfuel hws _
  cases fuel with
  | zero => cases hfuel
  | succ fuel =>
    rw [List.cons_append, readValue_plain hws hc hplain, ← List.cons_append, hread]

theorem readsBack_number {n : Number} (h : n.Fits d.shortNumbers) :
    ReadsBack d (.number n) (writeNumber n) := by
  by_cases hfinite : n.isFinite = true
  · obtain ⟨s, htext, hs⟩ := exists_spelling_writeNumber hfinite
    intro fuel ws rest hfuel hws hrest
    obtain ⟨c, more, hhead, hc, hquote, hbracket, hbrace, -⟩ := head?_text hs rest
    have hnumber := Number.readNumber_writeNumber h hfinite hrest
    have hword := readWord?_text hs rest
    rw [← htext] at hfuel hnumber ⊢
    have hpos : 0 < s.text.length := by
      obtain ⟨c, more, hhead, -⟩ := head?_text hs []
      rw [List.append_nil] at hhead
      rw [hhead]
      exact Nat.zero_lt_succ _
    obtain ⟨fuel, rfl⟩ : ∃ k, fuel = k + 1 := ⟨fuel - 1, by omega⟩
    rw [hhead] at hword hnumber ⊢
    rw [readValue_plain hws hc ⟨hquote, hbracket, hbrace⟩, hword, hnumber]
    rfl
  · cases n with
    | int n => exact absurd rfl hfinite
    | float x =>
      cases x with
      | finite => exact absurd rfl hfinite
      | infinite negative =>
        cases negative with
        | false =>
          exact readsBack_word 'I' ['n', 'f', 'i', 'n', 'i', 't', 'y'] rfl (by decide)
            fun rest => by
            simp [readWord?_eq, afterWord?]
        | true =>
          exact readsBack_word '-' ['I', 'n', 'f', 'i', 'n', 'i', 't', 'y'] rfl (by decide)
            fun rest => by simp [readWord?_eq, afterWord?]
      | nan =>
        exact readsBack_word 'N' ['a', 'N'] rfl (by decide) fun rest => by
          simp [readWord?_eq, afterWord?]

theorem readString_encode {text : String} (h : d.halves = true ∨ text.isEncodable = true)
    (rest : List Char) :
    readString d (text.toList.flatMap Quoted.escape ++ ('"' : Char) :: rest) =
      .ok (text, rest) := by
  simp only [readString, Quoted.decodeTail?_encode, String.ofList_toList, Bool.or_eq_true,
    h, if_true]

theorem readsBack_string {s : String} (h : d.halves = true ∨ s.isEncodable = true) :
    ReadsBack d (.string s) (Quoted.encode s.toList) := by
  intro fuel ws rest hfuel hws _
  cases fuel with
  | zero => cases hfuel
  | succ fuel =>
    have hquote : isSpace '"' = false := rfl
    rw [Quoted.encode, List.cons_append, List.append_assoc, List.singleton_append]
    simp only [readValue, skipSpace_blank hws hquote, readString_encode h]
    rfl

/-! ## Arrays and objects -/

/-- The items of an array are read back if each of them is. -/
theorem readItems_write (fuel : Nat) (rest : List Char) {item : Value} {more : List Value}
    {ws' : List Char}
    (hitems : ∀ v ∈ item :: more, ReadsBack d v (v.writeAt indent level))
    (hfuel : 2 *
      ((item.writeAt indent level).length + (Value.writeItems indent level more).length) < fuel)
    (hws : ∀ c ∈ ws, isSpace c = true) (hws' : ∀ c ∈ ws', isSpace c = true) :
    readItems fuel d (ws ++ (item.writeAt indent level ++
        (Value.writeItems indent level more ++ (ws' ++ (']' : Char) :: rest)))) =
      .ok (item :: more, rest) := by
  have hbracket : isSpace ']' = false := rfl
  induction more generalizing item fuel ws with
  | nil =>
    obtain ⟨fuel, rfl⟩ : ∃ k, fuel = k + 1 := ⟨fuel - 1, by omega⟩
    have hend : EndsNumber (ws' ++ (']' : Char) :: rest) :=
      endsNumber_blank hws' (endsNumber_cons (by decide) (by decide) (by decide))
    have hitem := hitems item (List.mem_cons_self ..) fuel ws _ (by omega) hws hend
    simp only [readItems, Value.writeItems, List.nil_append, hitem]
    simp only [Bind.bind, Except.bind, skipSpace_blank hws' hbracket]
    rfl
  | cons next more ih =>
    obtain ⟨fuel, rfl⟩ : ∃ k, fuel = k + 1 := ⟨fuel - 1, by omega⟩
    obtain ⟨gap, hseparator, hgap⟩ := exists_separator indent level
    have hcomma : isSpace ',' = false := rfl
    simp only [Value.writeItems, List.length_append, hseparator, List.length_cons] at hfuel
    have hitem (tail : List Char) := hitems item (List.mem_cons_self ..) fuel ws (',' :: tail)
      (by omega) hws (endsNumber_cons (by decide) (by decide) (by decide))
    have hmore := ih fuel (fun v hv => hitems v (List.mem_cons_of_mem item hv))
      (by omega) hgap
    simp only [readItems, Value.writeItems, hseparator, List.append_assoc, List.cons_append, hitem]
    simp only [Bind.bind, Except.bind, skipSpace_cons hcomma, hmore]
    rfl

/-- A member of an object as written. -/
def writeMember (indent : Indent) (level : Nat) (m : String × Value) : List Char :=
  Quoted.encode m.1.toList ++ (':' : Char) :: ' ' :: m.2.writeAt indent level

/-- The members of an object are read back if the key and the value of each of them are. -/
theorem readMembers_write (fuel : Nat) (rest : List Char) {member : String × Value}
    {more : List (String × Value)} {ws' : List Char}
    (hmembers : ∀ m ∈ member :: more, ReadsBack d m.2 (m.2.writeAt indent level))
    (hkeys : ∀ m ∈ member :: more, d.halves = true ∨ m.1.isEncodable = true)
    (hfuel : 2 * ((writeMember indent level member).length +
      (Value.writeMembers indent level more).length) < fuel)
    (hws : ∀ c ∈ ws, isSpace c = true) (hws' : ∀ c ∈ ws', isSpace c = true) :
    readMembers fuel d (ws ++ (writeMember indent level member ++
        (Value.writeMembers indent level more ++ (ws' ++ ('\x7d' : Char) :: rest)))) =
      .ok (member :: more, rest) := by
  have hquote : isSpace '"' = false := rfl
  have hcolon : isSpace ':' = false := rfl
  have hbrace : isSpace '\x7d' = false := rfl
  have hcomma : isSpace ',' = false := rfl
  have hblank : ∀ c ∈ [(' ' : Char)], isSpace c = true := List.forall_mem_singleton.2 rfl
  induction more generalizing member fuel ws with
  | nil =>
    obtain ⟨fuel, rfl⟩ : ∃ k, fuel = k + 1 := ⟨fuel - 1, by omega⟩
    have hkey := hkeys member (List.mem_cons_self ..)
    obtain ⟨key, value⟩ := member
    have hend : EndsNumber (ws' ++ ('\x7d' : Char) :: rest) :=
      endsNumber_blank hws' (endsNumber_cons (by decide) (by decide) (by decide))
    simp only [writeMember, Quoted.encode, Value.writeMembers, List.length_append,
      List.length_cons] at hfuel
    have hvalue :=
      hmembers _ (List.mem_cons_self ..) fuel [' '] _ (by dsimp only; omega) hblank hend
    simp only [readMembers, writeMember, Quoted.encode, Value.writeMembers, List.nil_append,
      List.append_assoc, List.cons_append, skipSpace_blank hws hquote, readString_encode hkey]
    simp only [Bind.bind, Except.bind, skipSpace_cons hcolon]
    rw [List.singleton_append] at hvalue
    simp only [hvalue, skipSpace_blank hws' hbrace]
    rfl
  | cons next more ih =>
    obtain ⟨fuel, rfl⟩ : ∃ k, fuel = k + 1 := ⟨fuel - 1, by omega⟩
    have hkey := hkeys member (List.mem_cons_self ..)
    obtain ⟨key, value⟩ := member
    obtain ⟨nextKey, nextValue⟩ := next
    obtain ⟨gap, hseparator, hgap⟩ := exists_separator indent level
    simp only [writeMember, Quoted.encode, Value.writeMembers, hseparator, List.length_append,
      List.length_cons] at hfuel
    have hvalue (tail : List Char) := hmembers _ (List.mem_cons_self ..) fuel [' '] (',' :: tail)
      (by dsimp only; omega) hblank (endsNumber_cons (by decide) (by decide) (by decide))
    have hmore := ih fuel (fun m hm => hmembers m (List.mem_cons_of_mem _ hm))
      (fun m hm => hkeys m (List.mem_cons_of_mem _ hm))
      (by simp only [writeMember, Quoted.encode, List.length_append, List.length_cons]; omega) hgap
    simp only [writeMember, Quoted.encode, List.append_assoc, List.cons_append,
      List.nil_append] at hmore
    simp only [List.singleton_append] at hvalue
    simp only [readMembers, writeMember, Quoted.encode, Value.writeMembers, hseparator,
      List.append_assoc, List.cons_append, List.nil_append, skipSpace_blank hws hquote,
      readString_encode hkey]
    simp only [Bind.bind, Except.bind, skipSpace_cons hcolon, hvalue, skipSpace_cons hcomma, hmore]
    rfl

/-! ## Values -/

theorem inside_of_pos (h : 0 < d.depth) : d.inside = .ok { d with depth := d.depth - 1 } := by
  unfold Demands.inside
  split
  · next heq => omega
  · next depth heq => rw [heq]; rfl

/-- The text of a value begins with no blank and no closing bracket. -/
theorem exists_head (v : Value) (indent : Indent) (level : Nat) :
    ∃ c more, v.writeAt indent level = c :: more ∧ isSpace c = false ∧ c ≠ ']' := by
  have hnumber (n : Number) : ∃ c more, writeNumber n = c :: more ∧ isSpace c = false ∧
      c ≠ ']' := by
    by_cases hfinite : n.isFinite = true
    · obtain ⟨s, htext, hs⟩ := exists_spelling_writeNumber hfinite
      obtain ⟨c, more, hhead, hc, -, -, -, hbracket⟩ := head?_text hs []
      rw [List.append_nil, htext] at hhead
      exact ⟨c, more, hhead, hc, hbracket⟩
    · cases n with
      | int n => exact absurd rfl hfinite
      | float x =>
        cases x with
        | finite => exact absurd rfl hfinite
        | infinite negative => cases negative <;> exact ⟨_, _, rfl, by decide, by decide⟩
        | nan => exact ⟨_, _, rfl, by decide, by decide⟩
  cases v with
  | null => exact ⟨_, _, rfl, by decide, by decide⟩
  | boolean b => cases b <;> exact ⟨_, _, rfl, by decide, by decide⟩
  | number n => exact hnumber n
  | string s => exact ⟨_, _, rfl, by decide, by decide⟩
  | array items => cases items <;> exact ⟨_, _, rfl, by decide, by decide⟩
  | object members => cases members <;> exact ⟨_, _, rfl, by decide, by decide⟩

/-- An array is read back if its items are, one level deeper. -/
theorem readsBack_array {items : List Value} (hdepth : items = [] ∨ 0 < d.depth)
    (hitems : ∀ v ∈ items, ReadsBack { d with depth := d.depth - 1 } v
      (v.writeAt indent (level + 1))) :
    ReadsBack d (.array items) ((Value.array items).writeAt indent level) := by
  intro fuel ws rest hfuel hws _
  have hopen : isSpace '[' = false := rfl
  have hclose : isSpace ']' = false := rfl
  cases items with
  | nil =>
    simp only [Value.writeAt, List.length_cons, List.length_nil] at hfuel
    obtain ⟨fuel, rfl⟩ : ∃ k, fuel = k + 1 := ⟨fuel - 1, by omega⟩
    simp only [readValue, Value.writeAt, List.cons_append, List.nil_append,
      skipSpace_blank hws hopen, skipSpace_cons hclose]
  | cons item more =>
    simp only [Value.writeAt, List.length_cons, List.length_append] at hfuel
    obtain ⟨fuel, rfl⟩ : ∃ k, fuel = k + 1 := ⟨fuel - 1, by omega⟩
    have hread := readItems_write fuel rest hitems (by omega)
      (isSpace_break indent (level + 1)) (isSpace_break indent level)
    obtain ⟨c, tail, hhead, hc, hbracket⟩ := exists_head item indent (level + 1)
    simp only [readValue, Value.writeAt, List.append_assoc, List.cons_append, List.nil_append,
      skipSpace_blank hws hopen, inside_of_pos (hdepth.resolve_left (List.cons_ne_nil item more))]
    simp only [hhead, List.cons_append] at hread ⊢
    rw [skipSpace_blank (isSpace_break indent (level + 1)) hc]
    split
    · next heq => cases heq; exact absurd rfl hbracket
    · simp only [Bind.bind, Except.bind, hread]
      rfl

/-- An object is read back if its keys and the values of its members are, one level deeper. -/
theorem readsBack_object {members : List (String × Value)} (hdistinct : Dictionary.Distinct members)
    (hdepth : members = [] ∨ 0 < d.depth)
    (hkeys : ∀ m ∈ members, d.halves = true ∨ m.1.isEncodable = true)
    (hmembers : ∀ m ∈ members, ReadsBack { d with depth := d.depth - 1 } m.2
      (m.2.writeAt indent (level + 1))) :
    ReadsBack d (.object members) ((Value.object members).writeAt indent level) := by
  intro fuel ws rest hfuel hws _
  have hopen : isSpace '\x7b' = false := rfl
  have hclose : isSpace '\x7d' = false := rfl
  have hquote : isSpace '"' = false := rfl
  cases members with
  | nil =>
    simp only [Value.writeAt, List.length_cons, List.length_nil] at hfuel
    obtain ⟨fuel, rfl⟩ : ∃ k, fuel = k + 1 := ⟨fuel - 1, by omega⟩
    simp only [readValue, Value.writeAt, List.cons_append, List.nil_append,
      skipSpace_blank hws hopen, skipSpace_cons hclose]
  | cons member more =>
    obtain ⟨key, value⟩ := member
    simp only [Value.writeAt, List.length_cons, List.length_append] at hfuel
    obtain ⟨fuel, rfl⟩ : ∃ k, fuel = k + 1 := ⟨fuel - 1, by omega⟩
    have hread := readMembers_write fuel rest hmembers hkeys
      (by simp only [writeMember, List.length_append, List.length_cons]; omega)
      (isSpace_break indent (level + 1)) (isSpace_break indent level)
    simp only [readValue, Value.writeAt, List.append_assoc, List.cons_append, List.nil_append,
      skipSpace_blank hws hopen, inside_of_pos (hdepth.resolve_left (List.cons_ne_nil _ more))]
    simp only [writeMember, Quoted.encode, List.append_assoc, List.cons_append,
      List.nil_append] at hread ⊢
    rw [skipSpace_blank (isSpace_break indent (level + 1)) hquote]
    simp only [Bind.bind, Except.bind, hread, Dictionary.ofList_of_distinct hdistinct]
    rfl

/-- A sound value that is not too deep is read back wherever its text stands, if the reader admits
its strings. -/
theorem readsBack_writeAt {v : Value} (h : v.Sound (Number.Fits d.shortNumbers))
    (hdepth : v.depth ≤ d.depth) (hstrings : d.halves = true ∨ v.isEncodable = true) :
    ReadsBack d v (v.writeAt indent level) := by
  generalize hp : Number.Fits d.shortNumbers = p at h
  induction h generalizing d level with
  | null =>
    exact readsBack_word 'n' ['u', 'l', 'l'] rfl (by decide) fun rest => by
      simp [readWord?_eq, afterWord?]
  | boolean b =>
    cases b with
    | true =>
      exact readsBack_word 't' ['r', 'u', 'e'] rfl (by decide) fun rest => by
        simp [readWord?_eq, afterWord?]
    | false =>
      exact readsBack_word 'f' ['a', 'l', 's', 'e'] rfl (by decide) fun rest => by
        simp [readWord?_eq, afterWord?]
  | number h => subst hp; exact readsBack_number h
  | string s => exact readsBack_string hstrings
  | array _ ih =>
    rcases Value.depth_array_le.1 hdepth with rfl | ⟨hpos, hitems⟩
    · exact readsBack_array (.inl rfl) fun _ hv => by cases hv
    · exact readsBack_array (.inr hpos) fun v hv => ih v hv (hitems v hv)
        (hstrings.imp_right fun h => Value.isEncodable_array.1 h v hv) hp
  | object hkeys _ ih =>
    rcases Value.depth_object_le.1 hdepth with rfl | ⟨hpos, hmembers⟩
    · exact readsBack_object hkeys (.inl rfl) (fun _ hm => by cases hm) fun _ hm => by cases hm
    · refine readsBack_object hkeys (.inr hpos) (fun m hm => ?_) fun m hm => ?_
      · exact hstrings.imp_right fun h => (Value.isEncodable_object.1 h m hm).1
      · exact ih m hm (hmembers m hm)
          (hstrings.imp_right fun h => (Value.isEncodable_object.1 h m hm).2) hp

/-- Reading undoes writing, for sound values within the reader's limits, whatever blanks follow. -/
theorem read_write_append {blanks : List Char} (h : v.Sound (Number.Fits d.shortNumbers))
    (hdepth : v.depth ≤ d.depth) (hstrings : d.halves = true ∨ v.isEncodable = true)
    (hblanks : ∀ c ∈ blanks, isSpace c = true) (hends : EndsNumber blanks) :
    read d (v.write indent ++ blanks) = .ok v := by
  have hback : ReadsBack d v (v.writeAt indent 0) := readsBack_writeAt h hdepth hstrings
  have hread := hback (2 * (v.write indent ++ blanks).length + 2) [] blanks
    (by simp only [Value.write, List.length_append]; omega) (fun _ hc => by cases hc) hends
  have hskip : skipSpace (blanks ++ []) = [] := List.dropWhile_append_of_pos hblanks
  rw [List.append_nil] at hskip
  rw [List.nil_append] at hread
  simp only [read]
  unfold Value.write at hread ⊢
  rw [hread]
  simp only [bind, Except.bind, hskip]
  rfl

/-- Reading undoes writing. -/
theorem read_write (h : v.Sound (Number.Fits d.shortNumbers)) (hdepth : v.depth ≤ d.depth)
    (hstrings : d.halves = true ∨ v.isEncodable = true) : read d (v.write indent) = .ok v := by
  have hread : read d (v.write indent ++ []) = .ok v :=
    read_write_append h hdepth hstrings (List.forall_mem_nil _) endsNumber_nil
  rwa [List.append_nil] at hread

end CommandSequence.Json
