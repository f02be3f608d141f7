import CommandSequence.Character.Digit

/-!
# The spelling of numbers

A numeral is an optional sign, digits with an optional fraction (or a fraction alone), and an
optional exponent. The same small automaton recognises a whole text (`Numeral.accepts`) and cuts the
longest numeral off the front of a text (`Numeral.cut?`); the cut must not stand before a character
that would continue a word or a number.
-/

namespace CommandSequence.Numeral

open Character

/-- How much of a numeral has been read. -/
inductive Stage where
  | start
  | signed
  | whole
  | barePoint
  | fraction
  | mark
  | markSigned
  | exponent
deriving DecidableEq, Repr

/-- Whether a numeral may end here. -/
def Stage.isFinal : Stage → Bool
  | .whole | .fraction | .exponent => true
  | _ => false

/-- The stage after one more character. -/
def Stage.next? : Stage → Char → Option Stage
  | .start, c =>
    if c == '+' || c == '-' then some .signed
    else if isDigit c then some .whole else if c == '.' then some .barePoint else none
  | .signed, c => if isDigit c then some .whole else if c == '.' then some .barePoint else none
  | .whole, c =>
    if isDigit c then some .whole else if c == '.' then some .fraction
    else if c == 'e' || c == 'E' then some .mark else none
  | .barePoint, c => if isDigit c then some .fraction else none
  | .fraction, c =>
    if isDigit c then some .fraction else if c == 'e' || c == 'E' then some .mark else none
  | .mark, c =>
    if c == '+' || c == '-' then some .markSigned else if isDigit c then some .exponent else none
  | .markSigned, c => if isDigit c then some .exponent else none
  | .exponent, c => if isDigit c then some .exponent else none

/-- Whether the text completes a numeral from a stage. -/
def Stage.accepts : Stage → List Char → Bool
  | stage, [] => stage.isFinal
  | stage, c :: rest =>
    match stage.next? c with
    | some stage => stage.accepts rest
    | none => false

/-- Whether a numeral may be followed by what is left: not by a word character or a point. -/
def endsBefore : List Char → Bool
  | [] => true
  | c :: _ => !(isWord c || c == '.')

/-- The longest completion of a numeral from a stage, and what is left after it. -/
def Stage.cut? : Stage → List Char → Option (List Char × List Char)
  | stage, [] => if stage.isFinal then some ([], []) else none
  | stage, c :: rest =>
    match (stage.next? c).bind fun stage => stage.cut? rest with
    | some (text, left) => some (c :: text, left)
    | none => if stage.isFinal && endsBefore (c :: rest) then some ([], c :: rest) else none

/-- Whether the whole text is a numeral. -/
def accepts (text : List Char) : Bool :=
  Stage.start.accepts text

/-- The longest numeral at the front of the text, and what is left after it. -/
def cut? (text : List Char) : Option (List Char × List Char) :=
  Stage.start.cut? text

theorem Stage.append_of_cut? {stage : Stage} {text lexeme left : List Char}
    (h : stage.cut? text = some (lexeme, left)) : text = lexeme ++ left := by
  induction text generalizing stage lexeme left with
  | nil =>
    simp only [Stage.cut?] at h
    split at h
    · cases h; rfl
    · cases h
  | cons c rest ih =>
    simp only [Stage.cut?] at h
    split at h
    · rename_i more _ hm
      cases h
      obtain ⟨next, -, hn⟩ := Option.bind_eq_some_iff.1 hm
      rw [ih hn]; rfl
    · split at h
      · cases h; rfl
      · cases h

/-- Nothing is lost by cutting. -/
theorem append_of_cut? {text lexeme left : List Char} (h : cut? text = some (lexeme, left)) :
    text = lexeme ++ left :=
  Stage.append_of_cut? h

/-- A cut numeral is not empty. -/
theorem ne_nil_of_cut? {text lexeme left : List Char} (h : cut? text = some (lexeme, left)) :
    lexeme ≠ [] := by
  cases text with
  | nil => simp [cut?, Stage.cut?, Stage.isFinal] at h
  | cons c rest =>
    simp only [cut?, Stage.cut?] at h
    split at h
    · cases h; simp
    · simp [Stage.isFinal] at h

end CommandSequence.Numeral
