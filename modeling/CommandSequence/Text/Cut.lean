import CommandSequence.Character.Digit

/-!
# Cutting pieces off the front of a text

The small readers that the fixed formats are made of. Each gives the piece that it recognises and
what is left; a text may end in one line feed that belongs to no piece.
-/

namespace CommandSequence.Cut

/-- Exactly `n` characters of a class. -/
def exactly? (p : Char → Bool) : (n : Nat) → List Char → Option (List Char × List Char)
  | 0, text => some ([], text)
  | n + 1, c :: rest =>
    if p c then (exactly? p n rest).map fun (piece, left) => (c :: piece, left) else none
  | _ + 1, [] => none

/-- One given character. -/
def char? (c : Char) : List Char → Option (List Char)
  | d :: rest => if d = c then some rest else none
  | [] => none

/-- The text after one given character, if that stands at its front. -/
def skipChar (c : Char) (text : List Char) : List Char :=
  (char? c text).getD text

/-- As many characters of a class as there are, but at least one. -/
def run? (p : Char → Bool) (text : List Char) : Option (List Char × List Char) :=
  match text.takeWhile p with
  | [] => none
  | piece => some (piece, text.dropWhile p)

/-- Whether the text ends here, apart from one line feed. -/
def atEnd : List Char → Bool
  | [] => true
  | ['\n'] => true
  | _ => false

/-- The pieces of a text between the occurrences of a separator; without one the text is one
piece. -/
def split (separator : Char) : List Char → List (List Char)
  | [] => [[]]
  | c :: rest =>
    if c = separator then [] :: split separator rest
    else match split separator rest with
      | [] => [[c]]
      | piece :: more => (c :: piece) :: more

end CommandSequence.Cut
