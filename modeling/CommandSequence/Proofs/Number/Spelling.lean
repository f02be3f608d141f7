import CommandSequence.Json.Reader
import CommandSequence.Proofs.Number.Decimal

/-!
# Numbers in decimal notation

`Spelling` is the notation of the JSON standard for numbers: a sign, a whole part without leading
zeros, a fraction and an exponent. Three readers meet it: the numeral automaton of sequence text
(`cut?_text`), the readers of whole numerals (`read?_text_of_isInteger`, `read?_text`) and the JSON
reader (`readNumber_text`). Each takes exactly the notation, and all
of them give it one value.
-/

namespace CommandSequence

open Character

/-- What an exponent begins with: a letter, small or capital, and a sign if one is written. -/
structure Spelling.Mark where
  capital : Bool
  /-- the sign, and whether it is a minus -/
  sign : Option Bool

/-- A number in decimal notation; the exponent has a mark and digits. -/
structure Spelling where
  negative : Bool
  whole : List Char
  fraction : List Char
  exponent : Option (Spelling.Mark × List Char)

namespace Spelling

namespace Mark

/-- The letter of the mark. -/
def letter (m : Mark) : Char :=
  if m.capital then 'E' else 'e'

/-- The sign of the mark as written. -/
def signed (m : Mark) : List Char :=
  match m.sign with
  | none => []
  | some true => ['-']
  | some false => ['+']

/-- Whether the exponent is below zero. -/
def below (m : Mark) : Bool :=
  m.sign == some true

/-- The mark with a small letter and a sign. -/
def standard (below : Bool) : Mark :=
  ⟨false, some below⟩

@[simp]
theorem letter_standard (below : Bool) : (standard below).letter = 'e' :=
  rfl

@[simp]
theorem below_standard (below : Bool) : (standard below).below = below := by
  cases below <;> rfl

@[simp]
theorem signed_standard (below : Bool) :
    (standard below).signed = [(if below then '-' else '+' : Char)] := by
  cases below <;> rfl

theorem letter_eq (m : Mark) : m.letter = 'e' ∨ m.letter = 'E' := by
  unfold letter
  split
  · exact .inr rfl
  · exact .inl rfl

theorem mem_signed {m : Mark} {c : Char} (hc : c ∈ m.signed) : c = '-' ∨ c = '+' := by
  unfold signed at hc
  split at hc
  · cases hc
  · exact .inl (List.mem_singleton.1 hc)
  · exact .inr (List.mem_singleton.1 hc)

end Mark

/-- The sign as written. -/
def sign (s : Spelling) : List Char :=
  if s.negative then [('-' : Char)] else []

/-- The fraction as written, with its point. -/
def pointed (s : Spelling) : List Char :=
  if s.fraction.isEmpty then [] else '.' :: s.fraction

/-- The exponent as written, with its mark and sign. -/
def marked (s : Spelling) : List Char :=
  match s.exponent with
  | none => []
  | some (mark, digits) => mark.letter :: (mark.signed ++ digits)

/-- The number as written. -/
def text (s : Spelling) : List Char :=
  s.sign ++ (s.whole ++ (s.pointed ++ s.marked))

/-- The notation has digits wherever it must have some. -/
structure Proper (s : Spelling) : Prop where
  whole : Decimal.Spelled s.whole
  fraction : ∀ c ∈ s.fraction, isAsciiDigit c = true
  exponent : ∀ mark digits, s.exponent = some (mark, digits) →
    digits ≠ [] ∧ ∀ c ∈ digits, isAsciiDigit c = true

/-- Whether the notation is that of an integer. -/
def isInteger (s : Spelling) : Bool :=
  s.fraction.isEmpty && s.exponent.isNone

/-- The power of ten that the exponent gives. -/
def power (s : Spelling) : Int :=
  match s.exponent with
  | none => 0
  | some (mark, digits) =>
    if mark.below then -(Decimal.value digits : Int) else Decimal.value digits

/-- The floating-point number nearest to the notation. -/
def value (s : Spelling) : Binary64 :=
  Binary64.ofDecimal s.negative (Decimal.value (s.whole ++ s.fraction))
    (s.power - s.fraction.length)

/-- The number of the notation: an integer if it has neither fraction nor exponent. -/
def number (s : Spelling) : Number :=
  if s.isInteger then
    .int (if s.negative then -(Decimal.value s.whole : Int) else Decimal.value s.whole)
  else .float s.value

end Spelling

/-- What may follow a number: nothing that would continue it or a word. -/
def EndsNumber (rest : List Char) : Prop :=
  ∀ c, rest.head? = some c → isWord c = false ∧ isDigit c = false ∧ c ≠ '.'

theorem endsNumber_nil : EndsNumber [] := by
  intro c h
  cases h

theorem endsNumber_cons {c : Char} {rest : List Char} (hword : isWord c = false)
    (hdigit : isDigit c = false) (hpoint : c ≠ '.') : EndsNumber (c :: rest) := by
  intro d h
  cases h
  exact ⟨hword, hdigit, hpoint⟩

/-! ## Runs of characters -/

theorem takeWhile_run {p : Char → Bool} {run rest : List Char} (hrun : ∀ c ∈ run, p c = true)
    (hrest : ∀ c, rest.head? = some c → p c = false) : (run ++ rest).takeWhile p = run := by
  rw [List.takeWhile_append_of_pos hrun]
  cases rest with
  | nil => simp
  | cons c rest => simp [hrest c rfl]

theorem dropWhile_run {p : Char → Bool} {run rest : List Char} (hrun : ∀ c ∈ run, p c = true)
    (hrest : ∀ c, rest.head? = some c → p c = false) : (run ++ rest).dropWhile p = rest := by
  rw [List.dropWhile_append_of_pos hrun]
  cases rest with
  | nil => simp
  | cons c rest => simp [hrest c rfl]

/-- A text on one line has no final line feed. -/
theorem Number.dropFinalNewline_of_notMem {text : List Char} (h : ('\n' : Char) ∉ text) :
    dropFinalNewline text = text := by
  unfold dropFinalNewline
  rw [if_neg]
  intro hlast
  exact h (List.mem_of_getLast? (beq_iff_eq.1 hlast))

namespace Spelling

variable {s : Spelling}

theorem isDigit_of_mem {digits : List Char} (h : ∀ c ∈ digits, isAsciiDigit c = true) :
    ∀ c ∈ digits, isDigit c = true :=
  fun c hc => isDigit_of_isAsciiDigit (h c hc)

/-- What is written after the whole part begins with no digit. -/
theorem head?_after_whole {rest : List Char} (hrest : EndsNumber rest) :
    ∀ c, (s.pointed ++ (s.marked ++ rest)).head? = some c → isDigit c = false := by
  intro c hc
  unfold pointed marked at hc
  split at hc
  · split at hc
    · exact (hrest c hc).2.1
    · next mark _ _ =>
      cases hc
      rcases mark.letter_eq with h | h <;> rw [h] <;> decide
  · cases hc; decide

/-- What is written after the fraction begins with no digit and no point. -/
theorem head?_after_fraction {rest : List Char} (hrest : EndsNumber rest) :
    ∀ c, (s.marked ++ rest).head? = some c → isDigit c = false ∧ c ≠ '.' := by
  intro c hc
  unfold marked at hc
  split at hc
  · exact (hrest c hc).2
  · next mark _ _ =>
    cases hc
    rcases mark.letter_eq with h | h <;> rw [h] <;> decide

/-! ## The sign -/

theorem splitSign_digit {c : Char} {rest : List Char} (h : isAsciiDigit c = true) :
    Number.splitSign (c :: rest) = (false, c :: rest) := by
  unfold Number.splitSign
  split
  · next heq => cases heq; exact absurd h (by decide)
  · next heq => cases heq; exact absurd h (by decide)
  · rfl

/-- The sign is told from the digits after it. -/
theorem splitSign_sign (hs : s.Proper) (rest : List Char) :
    Number.splitSign (s.sign ++ (s.whole ++ rest)) = (s.negative, s.whole ++ rest) := by
  obtain ⟨c, digits, hwhole⟩ := List.exists_cons_of_ne_nil hs.whole.ne_nil
  have hc : isAsciiDigit c = true := hs.whole.digit c (by rw [hwhole]; exact List.mem_cons_self ..)
  unfold sign
  split
  · next hneg => rw [hneg]; rfl
  · next hneg =>
    rw [hwhole, List.nil_append, List.cons_append, splitSign_digit hc]
    simpa using hneg

/-- The sign of an exponent is told from its digits. -/
theorem splitSign_signed {mark : Mark} {digits : List Char} (hne : digits ≠ [])
    (hdigits : ∀ c ∈ digits, isAsciiDigit c = true) :
    Number.splitSign (mark.signed ++ digits) = (mark.below, digits) := by
  obtain ⟨c, more, rfl⟩ := List.exists_cons_of_ne_nil hne
  obtain ⟨capital, sign⟩ := mark
  rcases sign with _ | _ | _
  · exact splitSign_digit (hdigits c (List.mem_cons_self ..))
  · rfl
  · rfl

/-! ## Whole numerals -/

/-- The floating-point number of a notation is its value. -/
theorem readFloat_text (hs : s.Proper) : Number.readFloat s.text = s.value := by
  have hwhole := isDigit_of_mem hs.whole.digit
  have hafter := head?_after_whole (s := s) endsNumber_nil
  rw [List.append_nil] at hafter
  simp only [Number.readFloat, text, splitSign_sign hs, takeWhile_run hwhole hafter,
    dropWhile_run hwhole hafter]
  obtain ⟨negative, whole, fraction, exponent⟩ := s
  have hfraction := isDigit_of_mem hs.fraction
  have hend := head?_after_fraction (s := ⟨negative, whole, fraction, exponent⟩) endsNumber_nil
  rw [List.append_nil] at hend
  have hmark : ∀ c, (marked ⟨negative, whole, fraction, exponent⟩).head? = some c →
      isDigit c = false := fun c hc => (hend c hc).1
  have hsign (mark : Mark) (digits : List Char) (h : exponent = some (mark, digits)) :
      Number.splitSign (mark.signed ++ digits) = (mark.below, digits) := by
    obtain ⟨hne, hdigits⟩ := hs.exponent mark digits h
    exact splitSign_signed hne hdigits
  cases fraction with
  | nil =>
    simp only [pointed, List.isEmpty_nil, if_true, List.nil_append]
    rcases exponent with _ | ⟨mark, digits⟩
    · rfl
    · have hpoint : mark.letter ≠ '.' := (hend _ rfl).2
      simp only [marked, value, power]
      split
      · next heq => exact absurd (List.cons.inj heq).1 hpoint
      · simp only [hsign mark digits rfl]
  | cons c fraction =>
    simp only [pointed, List.isEmpty_cons, Bool.false_eq_true, if_false, List.cons_append]
    rw [← List.cons_append, takeWhile_run hfraction hmark, dropWhile_run hfraction hmark]
    rcases exponent with _ | ⟨mark, digits⟩
    · rfl
    · simp only [marked, value, power, hsign mark digits rfl]

/-- The characters of a number. -/
theorem mem_text (hs : s.Proper) {c : Char} (hc : c ∈ s.text) :
    isAsciiDigit c = true ∨ c ∈ [('-' : Char), '+', '.', 'e', 'E'] := by
  simp only [text, sign, pointed, marked, List.mem_append] at hc
  rcases hc with hc | hc | hc | hc
  · split at hc
    · rw [List.mem_singleton.1 hc]; exact .inr (by decide)
    · cases hc
  · exact .inl (hs.whole.digit c hc)
  · split at hc
    · cases hc
    · rcases List.mem_cons.1 hc with rfl | hc
      · exact .inr (by decide)
      · exact .inl (hs.fraction c hc)
  · split at hc
    · cases hc
    · next mark digits hexp =>
      rcases List.mem_cons.1 hc with rfl | hc
      · rcases mark.letter_eq with h | h <;> rw [h] <;> exact .inr (by decide)
      rcases List.mem_append.1 hc with hc | hc
      · rcases Mark.mem_signed hc with rfl | rfl <;> exact .inr (by decide)
      · exact .inl ((hs.exponent mark digits hexp).2 c hc)

theorem dropFinalNewline_text (hs : s.Proper) : Number.dropFinalNewline s.text = s.text :=
  Number.dropFinalNewline_of_notMem fun hmem => absurd (mem_text hs hmem) (by decide)

/-- A notation is that of an integer if it has neither fraction nor exponent. -/
theorem isIntegerNumeral_text (hs : s.Proper) :
    Number.isIntegerNumeral s.text = s.isInteger := by
  simp only [Number.isIntegerNumeral, text, splitSign_sign hs]
  obtain ⟨negative, whole, fraction, exponent⟩ := s
  have hne : (whole ++ (pointed ⟨negative, whole, fraction, exponent⟩
      ++ marked ⟨negative, whole, fraction, exponent⟩)).isEmpty = false := by
    simp [hs.whole.ne_nil]
  have hwhole : whole.all isDigit = true := List.all_eq_true.2 (isDigit_of_mem hs.whole.digit)
  rw [hne, List.all_append, hwhole]
  cases fraction with
  | nil =>
    rcases exponent with _ | ⟨mark, digits⟩
    · rfl
    · have hletter : isDigit mark.letter = false := by
        rcases mark.letter_eq with h | h <;> rw [h] <;> decide
      simp [pointed, marked, isInteger, hletter]
  | cons c fraction => simp [pointed, isInteger, show isDigit '.' = false by decide]

end Spelling

/-! ## The numeral automaton -/

namespace Numeral.Stage

variable {stage next : Stage} {c : Char} {digits rest lexeme left : List Char}

theorem cut?_cons (h : stage.next? c = some next) (hcut : next.cut? rest = some (lexeme, left)) :
    stage.cut? (c :: rest) = some (c :: lexeme, left) := by
  simp only [cut?, h, Option.bind_some, hcut]

/-- Where a numeral may end and does not go on, it ends. -/
theorem cut?_end (hfinal : stage.isFinal = true) (hrest : EndsNumber rest) :
    stage.cut? rest = some ([], rest) := by
  cases rest with
  | nil => simp [cut?, hfinal]
  | cons c rest =>
    obtain ⟨hword, hdigit, hpoint⟩ := hrest c rfl
    have he : c ≠ 'e' := by rintro rfl; cases hword
    have hE : c ≠ 'E' := by rintro rfl; cases hword
    have hnext : stage.next? c = none := by
      cases stage <;> simp_all [isFinal, next?]
    simp [cut?, hnext, hfinal, endsBefore, hword, hpoint]

/-- A run of digits leaves a stage of digits as it is. -/
theorem cut?_digits (hstage : ∀ c, isDigit c = true → stage.next? c = some stage)
    (hdigits : ∀ c ∈ digits, isDigit c = true) (hcut : stage.cut? rest = some (lexeme, left)) :
    stage.cut? (digits ++ rest) = some (digits ++ lexeme, left) := by
  induction digits with
  | nil => exact hcut
  | cons c digits ih =>
    exact cut?_cons (hstage c (hdigits c (List.mem_cons_self ..)))
      (ih fun d hd => hdigits d (List.mem_cons_of_mem c hd))

theorem next?_whole (h : isDigit c = true) : Stage.whole.next? c = some .whole := by
  simp [next?, h]

theorem next?_fraction (h : isDigit c = true) : Stage.fraction.next? c = some .fraction := by
  simp [next?, h]

theorem next?_exponent (h : isDigit c = true) : Stage.exponent.next? c = some .exponent := by
  simp [next?, h]

theorem next?_mark (h : isDigit c = true) : Stage.mark.next? c = some .exponent := by
  have hsign : c ≠ '+' ∧ c ≠ '-' :=
    ⟨by rintro rfl; exact absurd h (by decide), by rintro rfl; exact absurd h (by decide)⟩
  simp [next?, h, hsign]

theorem next?_markSigned (h : isDigit c = true) : Stage.markSigned.next? c = some .exponent := by
  simp [next?, h]

theorem next?_signed (h : isDigit c = true) : Stage.signed.next? c = some .whole := by
  simp [next?, h]

theorem next?_start (h : isDigit c = true) : Stage.start.next? c = some .whole := by
  have hsign : c ≠ '+' ∧ c ≠ '-' :=
    ⟨by rintro rfl; exact absurd h (by decide), by rintro rfl; exact absurd h (by decide)⟩
  simp [next?, h, hsign]

/-- What is cut is a numeral. -/
theorem accepts_of_cut? {text : List Char} (h : stage.cut? text = some (lexeme, left)) :
    stage.accepts lexeme = true := by
  induction text generalizing stage lexeme with
  | nil =>
    simp only [cut?] at h
    split at h
    · cases h; assumption
    · cases h
  | cons c text ih =>
    simp only [cut?] at h
    split at h
    · next more _ hm =>
      cases h
      obtain ⟨next, hnext, hcut⟩ := Option.bind_eq_some_iff.1 hm
      simp only [accepts, hnext, ih hcut]
    · split at h
      · next hfinal =>
        cases h
        exact (Bool.and_eq_true_iff.1 hfinal).1
      · cases h

end Numeral.Stage

namespace Spelling

open Numeral (Stage)

variable {s : Spelling} {rest : List Char}

/-- The letter of an exponent may stand after digits. -/
theorem next?_letter {stage : Stage} (hstage : stage = .whole ∨ stage = .fraction) (mark : Mark) :
    stage.next? mark.letter = some .mark := by
  rcases hstage with rfl | rfl <;> rcases mark.letter_eq with h | h <;> rw [h] <;> decide

/-- The digits of an exponent are taken after its sign, if it has one. -/
theorem cut?_signed {mark : Mark} {c : Char} {digits lexeme left : List Char}
    (hc : isDigit c = true)
    (hcut : Stage.exponent.cut? (digits ++ rest) = some (lexeme, left)) :
    Stage.mark.cut? (mark.signed ++ (c :: digits ++ rest)) =
      some (mark.signed ++ c :: lexeme, left) := by
  have hsigned : Stage.markSigned.cut? (c :: digits ++ rest) = some (c :: lexeme, left) :=
    Stage.cut?_cons (Stage.next?_markSigned hc) hcut
  obtain ⟨capital, sign⟩ := mark
  rcases sign with _ | _ | _
  · exact Stage.cut?_cons (Stage.next?_mark hc) hcut
  · exact Stage.cut?_cons rfl hsigned
  · exact Stage.cut?_cons rfl hsigned

theorem cut?_marked (hs : s.Proper) {stage : Stage} (hstage : stage = .whole ∨ stage = .fraction)
    (hrest : EndsNumber rest) : stage.cut? (s.marked ++ rest) = some (s.marked, rest) := by
  unfold marked
  split
  · have hfinal : stage.isFinal = true := by rcases hstage with rfl | rfl <;> rfl
    exact Stage.cut?_end hfinal hrest
  · next mark digits hexp =>
    obtain ⟨hne, hdigits⟩ := hs.exponent mark digits hexp
    obtain ⟨c, more, rfl⟩ := List.exists_cons_of_ne_nil hne
    have hdigits := isDigit_of_mem hdigits
    have hrun := Stage.cut?_digits (fun _ => Stage.next?_exponent)
      (fun d hd => hdigits d (List.mem_cons_of_mem c hd)) (Stage.cut?_end rfl hrest)
    rw [List.append_nil] at hrun
    rw [List.cons_append, List.append_assoc]
    exact Stage.cut?_cons (next?_letter hstage mark)
      (cut?_signed (hdigits c (List.mem_cons_self ..)) hrun)

theorem cut?_pointed (hs : s.Proper) (hrest : EndsNumber rest) :
    Stage.whole.cut? (s.pointed ++ (s.marked ++ rest)) = some (s.pointed ++ s.marked, rest) := by
  unfold pointed
  split
  · exact cut?_marked hs (.inl rfl) hrest
  · have hpoint : Stage.whole.next? '.' = some .fraction := rfl
    exact Stage.cut?_cons hpoint (Stage.cut?_digits (fun _ => Stage.next?_fraction)
      (isDigit_of_mem hs.fraction) (cut?_marked hs (.inr rfl) hrest))

/-- The automaton takes a number exactly. -/
theorem cut?_text (hs : s.Proper) (hrest : EndsNumber rest) :
    Numeral.cut? (s.text ++ rest) = some (s.text, rest) := by
  obtain ⟨c, digits, hwhole⟩ := List.exists_cons_of_ne_nil hs.whole.ne_nil
  have hc : isAsciiDigit c = true := hs.whole.digit c (by rw [hwhole]; exact List.mem_cons_self ..)
  have hdigits : ∀ d ∈ digits, isDigit d = true := fun d hd =>
    isDigit_of_mem hs.whole.digit d (by rw [hwhole]; exact List.mem_cons_of_mem c hd)
  have hrun := Stage.cut?_digits (fun _ => Stage.next?_whole) hdigits (cut?_pointed hs hrest)
  simp only [Numeral.cut?, text, sign, hwhole, List.append_assoc]
  split
  · have hminus : Stage.start.next? '-' = some .signed := rfl
    exact Stage.cut?_cons hminus
      (Stage.cut?_cons (Stage.next?_signed (isDigit_of_isAsciiDigit hc)) hrun)
  · exact Stage.cut?_cons (Stage.next?_start (isDigit_of_isAsciiDigit hc)) hrun

theorem accepts_text (hs : s.Proper) : Numeral.accepts s.text = true :=
  Stage.accepts_of_cut? (cut?_text hs endsNumber_nil)

/-- A notation of an integer is read as an integer. -/
theorem read?_text_of_isInteger (hs : s.Proper) (hint : s.isInteger = true) :
    Number.read? s.text = (Number.readInt s.text).map (some ∘ .int) := by
  simp only [Number.read?, dropFinalNewline_text hs, isIntegerNumeral_text hs, hint, if_true]

/-- Every other notation is read as the floating-point number nearest to it. -/
theorem read?_text (hs : s.Proper) (hint : s.isInteger = false) :
    Number.read? s.text = .ok (some (.float s.value)) := by
  simp only [Number.read?, dropFinalNewline_text hs, isIntegerNumeral_text hs, hint,
    accepts_text hs, readFloat_text hs, Bool.false_eq_true, if_false, if_true]

/-- The notation is no integer's, or has no more digits than are read. -/
def IsShort (s : Spelling) : Prop :=
  s.isInteger = true → s.whole.length ≤ Decimal.digitLimit

theorem isEmpty_pointed_and_marked (s : Spelling) :
    (s.pointed.isEmpty && s.marked.isEmpty) = s.isInteger := by
  obtain ⟨negative, whole, fraction, exponent⟩ := s
  cases fraction with
  | nil => cases exponent <;> rfl
  | cons c fraction => rfl

theorem text_of_isInteger (hint : s.isInteger = true) : s.text = s.sign ++ s.whole := by
  simp only [isInteger, Bool.and_eq_true, Option.isNone_iff_eq_none] at hint
  simp only [text, pointed, marked, hint.1, hint.2, if_true, List.append_nil]

/-- A short notation is read as its number, a longer one as none. -/
theorem read?_text_iff (hs : s.Proper) {n : Number} :
    Number.read? s.text = .ok (some n) ↔ s.IsShort ∧ s.number = n := by
  unfold IsShort number
  cases hint : s.isInteger with
  | false => simp [read?_text hs hint]
  | true =>
    have hsign := splitSign_sign hs []
    rw [List.append_nil] at hsign
    rw [read?_text_of_isInteger hs hint, text_of_isInteger hint]
    simp only [Number.readInt, hsign, Decimal.value?, if_true]
    by_cases hlength : s.whole.length ≤ Decimal.digitLimit
    · simp [hlength, Except.map]
    · simp [hlength, Except.map]

/-! ## The JSON reader -/

theorem cutWhole_whole {whole rest : List Char} (h : Decimal.Spelled whole)
    (hrest : ∀ c, rest.head? = some c → isAsciiDigit c = false) :
    Json.cutWhole (whole ++ rest) = (whole, rest) := by
  unfold Json.cutWhole
  split
  · next tail heq =>
    have hhead : whole.head? = some ('0' : Char) := by
      cases whole with
      | nil => exact absurd rfl h.ne_nil
      | cons c whole => cases heq; rfl
    rw [h.leading hhead] at heq ⊢
    cases heq
    rfl
  · rw [takeWhile_run h.digit hrest, dropWhile_run h.digit hrest]

theorem not_isAsciiDigit {c : Char} (h : isDigit c = false) : isAsciiDigit c = false := by
  rw [Bool.eq_false_iff] at h ⊢
  exact fun hc => h (isDigit_of_isAsciiDigit hc)

theorem cutFraction_pointed (hs : s.Proper) (hrest : EndsNumber rest) :
    Json.cutFraction (s.pointed ++ (s.marked ++ rest)) = (s.pointed, s.marked ++ rest) := by
  have hend := head?_after_fraction (s := s) hrest
  unfold pointed
  split
  · rw [List.nil_append]
    generalize s.marked ++ rest = tail at *
    unfold Json.cutFraction
    split
    · exact absurd rfl (hend _ rfl).2
    · rfl
  · next hne =>
    have hrun : ∀ c, (s.marked ++ rest).head? = some c → isAsciiDigit c = false :=
      fun c hc => not_isAsciiDigit (hend c hc).1
    simp only [Json.cutFraction, List.cons_append, takeWhile_run hs.fraction hrun,
      dropWhile_run hs.fraction hrun, hne, Bool.false_eq_true, if_false]

theorem cutExponent_marked (hs : s.Proper) (hrest : EndsNumber rest) :
    Json.cutExponent (s.marked ++ rest) = (s.marked, rest) := by
  unfold marked
  split
  · cases rest with
    | nil => rfl
    | cons c rest =>
      obtain ⟨hword, -, -⟩ := hrest c rfl
      have he : c ≠ 'e' := by rintro rfl; cases hword
      have hE : c ≠ 'E' := by rintro rfl; cases hword
      simp [Json.cutExponent, he, hE]
  · next mark digits hexp =>
    obtain ⟨hne, hdigits⟩ := hs.exponent mark digits hexp
    have hrun : ∀ c, rest.head? = some c → isAsciiDigit c = false :=
      fun c hc => not_isAsciiDigit (hrest c hc).2.1
    have hletter : (mark.letter == 'e' || mark.letter == 'E') = true := by
      simpa using mark.letter_eq
    have htake := takeWhile_run hdigits hrun
    have hdrop := dropWhile_run hdigits hrun
    obtain ⟨c, more, rfl⟩ := List.exists_cons_of_ne_nil hne
    have hc : c ≠ '+' ∧ c ≠ '-' :=
      ⟨by rintro rfl; exact absurd (hdigits _ (List.mem_cons_self ..)) (by decide),
        by rintro rfl; exact absurd (hdigits _ (List.mem_cons_self ..)) (by decide)⟩
    obtain ⟨capital, sign⟩ := mark
    rcases sign with _ | _ | _ <;> simp_all [Json.cutExponent, Mark.signed]

/-- What a JSON reader makes of a number that is not too long for it. -/
theorem readNumber_text {d : Json.Demands} (hs : s.Proper) (hrest : EndsNumber rest)
    (hshort : d.shortNumbers = true → (s.sign ++ s.whole).length ≤ Decimal.digitLimit) :
    Json.readNumber d (s.text ++ rest) =
      if s.isInteger then
        match Number.readInt s.text with
        | .ok n => .ok (.int n, rest)
        | .error _ => .error .numberTooLong
      else .ok (.float s.value, rest) := by
  obtain ⟨c, digits, hwhole⟩ := List.exists_cons_of_ne_nil hs.whole.ne_nil
  have hc : c ≠ '-' := by
    rintro rfl
    exact absurd (hs.whole.digit '-' (by rw [hwhole]; exact List.mem_cons_self ..)) (by decide)
  have hcut : Json.cutWhole (s.whole ++ (s.pointed ++ (s.marked ++ rest))) =
      (s.whole, s.pointed ++ (s.marked ++ rest)) :=
    cutWhole_whole hs.whole fun d hd => not_isAsciiDigit (head?_after_whole hrest d hd)
  have hlong : (d.shortNumbers && decide (Decimal.digitLimit < (s.sign ++ s.whole).length)) =
      false := by
    cases hd : d.shortNumbers with
    | false => rfl
    | true => simpa [hd] using hshort hd
  have hread : Json.readNumber d (s.text ++ rest) =
      Json.readMagnitude d s.sign (s.whole ++ (s.pointed ++ (s.marked ++ rest))) := by
    simp only [Json.readNumber, text, sign, List.append_assoc]
    split
    · next heq =>
      split at heq
      · next hneg => cases heq; rw [if_pos hneg]; rfl
      · rw [hwhole] at heq; cases heq; exact absurd rfl hc
    · next hnot =>
      split
      · next hneg => rw [if_pos hneg] at hnot; exact absurd rfl (hnot _)
      · rfl
  have hfloat : Number.readFloat (s.sign ++ s.whole ++ s.pointed ++ s.marked) = s.value := by
    rw [← readFloat_text hs, text, List.append_assoc, List.append_assoc]
  have hempty : s.whole.isEmpty = false := by simpa using hs.whole.ne_nil
  simp only [hread, Json.readMagnitude, hcut, cutFraction_pointed hs hrest,
    cutExponent_marked hs hrest, hlong, hfloat, hempty, isEmpty_pointed_and_marked,
    Bool.false_eq_true, if_false]
  by_cases hint : s.isInteger = true
  · have htext := text_of_isInteger hint
    cases hvalue : Number.readInt (s.sign ++ s.whole) with
    | ok n => simp [hint, htext, hvalue]
    | error e => simp [hint, htext, hvalue]
  · simp [hint]

end Spelling

end CommandSequence
