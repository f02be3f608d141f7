import CommandSequence.Source.Terminal

/-!
# Tokens and where they stand

A cursor stands in a text and takes one token at a time. It looks only for the kinds of tokens that
may stand at its place, so one text can be an identifier here and a time tag there. A place is
described by *levels*: the first is what may follow the construct just read wherever it stands, the
further ones what may follow it here, construct by construct outwards. A token that fits none of the
kinds of the first level is an error at once; one that fits must be admitted by the further levels
until one takes it.
-/

namespace CommandSequence.Source

/-- A place in a text: the count of characters before it, its line and its column, both from 1. -/
structure Position where
  offset : Nat
  line : Nat
  column : Nat
deriving DecidableEq, Repr

namespace Position

/-- The beginning of a text. -/
def origin : Position := ⟨0, 1, 1⟩

/-- The place after one character. -/
def step (p : Position) (c : Char) : Position :=
  if c == '\n' then ⟨p.offset + 1, p.line + 1, 1⟩ else ⟨p.offset + 1, p.line, p.column + 1⟩

/-- The place after a piece of text. -/
def advance (p : Position) (text : List Char) : Position :=
  text.foldl step p

end Position

/-- A token: its kind, its text and where it begins. -/
structure Token where
  kind : Terminal
  text : List Char
  position : Position
deriving DecidableEq, Repr

/-- What stands where something else was expected. -/
inductive Offence where
  | character (c : Char)
  | token (text : List Char)
  | endOfInput
deriving DecidableEq, Repr

/-- A text that departs from the grammar: what stands where, and what could have stood there. -/
structure SyntaxError where
  offence : Offence
  expected : List Terminal
  position : Position
deriving DecidableEq, Repr

/-- What may stand at a place as far as one construct is concerned: the kinds that it admits, and
among them those that it takes for itself. -/
structure Level where
  admits : List Terminal
  takes : List Terminal := []
deriving DecidableEq, Repr

namespace Level

/-- The kinds admitted by the first level that refuses a kind, unless a level takes it before. -/
def refusing? : List Level → Terminal → Option (List Terminal)
  | [], _ => none
  | level :: outer, kind =>
    if level.takes.contains kind then none
    else if level.admits.contains kind then refusing? outer kind
    else some level.admits

/-- The kinds that are looked for: those of the first level. -/
def sought : List Level → List Terminal
  | [] => []
  | level :: _ => level.admits

end Level

/-- A cursor: what is left of the text, the place where it stands, where the last token began, and
the length of the whole text, which bounds the loops that read from the cursor. -/
structure Cursor where
  rest : List Char
  position : Position
  last : Position
  bound : Nat
deriving DecidableEq, Repr

namespace Cursor

/-- The cursor at the beginning of a text. -/
def ofText (text : List Char) : Cursor :=
  ⟨text, .origin, .origin, text.length⟩

/-- The cursor after blanks. -/
def skipBlanks (c : Cursor) : Cursor :=
  { c with
    rest := c.rest.dropWhile Terminal.isBlank
    position := c.position.advance (c.rest.takeWhile Terminal.isBlank) }

/-- The first kind, of those looked for, that has a token at the front of a text. -/
def firstCut? (kinds : List Terminal) (text : List Char) :
    Option (Terminal × List Char × List Char) :=
  Terminal.all.findSome? fun kind =>
    if kinds.contains kind then (kind.cut? text).map fun (lexeme, left) => (kind, lexeme, left)
    else none

/-- What stands at the front of a text that has none of the tokens looked for. -/
def offence (text : List Char) : Offence :=
  match firstCut? Terminal.all text, text with
  | some (_, lexeme, _), _ => .token lexeme
  | none, c :: _ => .character c
  | none, [] => .endOfInput

/-- The next token of one of the kinds looked for, or nothing at the end of the text. -/
def next (c : Cursor) (kinds : List Terminal) : Except SyntaxError (Option (Token × Cursor)) :=
  let c := c.skipBlanks
  if c.rest.isEmpty then .ok none
  else match firstCut? kinds c.rest with
    | some (kind, lexeme, left) =>
      .ok (some (⟨kind, lexeme, c.position⟩,
        { c with rest := left, position := c.position.advance lexeme, last := c.position }))
    | none => .error ⟨offence c.rest, kinds.filter (· != .endOfInput), c.position⟩

/-- The next token as the levels demand, or nothing where they admit the end of the text. -/
def read (c : Cursor) (levels : List Level) : Except SyntaxError (Option (Token × Cursor)) := do
  match ← c.next (Level.sought levels) with
  | none =>
    match Level.refusing? levels .endOfInput with
    | none => return none
    | some expected => throw ⟨.endOfInput, expected, c.last⟩
  | some (token, after) =>
    match Level.refusing? levels token.kind with
    | none => return some (token, after)
    | some expected => throw ⟨.token token.text, expected, token.position⟩

/-- The next token as the levels demand; the text must not end here. -/
def take (c : Cursor) (levels : List Level) : Except SyntaxError (Token × Cursor) := do
  match ← c.read levels with
  | some found => return found
  | none => throw ⟨.endOfInput, Level.sought levels, c.last⟩

/-- The next token, of one of the given kinds. -/
def expect (c : Cursor) (kinds : List Terminal) : Except SyntaxError (Token × Cursor) :=
  c.take [⟨kinds, []⟩]

end Cursor

end CommandSequence.Source
