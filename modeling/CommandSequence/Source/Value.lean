import CommandSequence.Source.Token

/-!
# Values in sequence text

A metadata value is JSON spread over tokens: line ends may stand after an opening bracket or comma,
before a comma, and before a closing bracket. The value keeps its tokens, and every compound value
the place of its opening bracket.
-/

namespace CommandSequence.Source

/-- A metadata value as written. -/
inductive Value where
  | scalar (token : Token)
  | array (position : Position) (items : List Value)
  | object (position : Position) (members : List (Token × Value))

namespace Value

/-- What begins a value. -/
def openers : List Terminal :=
  [.string, .number, .boolean, .null, .leftBrace, .leftBracket]

/-- What may follow a value wherever it stands. -/
def followers : Level := ⟨[.comma, .rightBrace, .rightBracket, .newline], []⟩

/-- The next token of the given kinds, with line ends before it skipped. -/
def expectPastNewline (c : Cursor) (levels : List Level) (kinds : List Terminal) :
    Except SyntaxError (Token × Cursor) := do
  let (token, after) ← c.take levels
  if token.kind == .newline then after.expect kinds else return (token, after)

/-- The error for a reader that has run out of fuel, which it never does. -/
def exhausted (c : Cursor) : SyntaxError :=
  ⟨.endOfInput, [], c.last⟩

mutual

/-- The value that begins with a token already taken. -/
def readFrom (token : Token) : (fuel : Nat) → Cursor → Except SyntaxError (Value × Cursor)
  | 0, c => .error (exhausted c)
  | fuel + 1, c =>
    match token.kind with
    | .leftBrace => do
      let (first, c) ← expectPastNewline c [⟨[.rightBrace, .string, .newline], []⟩]
        [.rightBrace, .string]
      if first.kind == .rightBrace then return (.object token.position [], c)
      else
        let (members, c) ← readMembers first fuel c
        return (.object token.position members, c)
    | .leftBracket => do
      let (first, c) ← expectPastNewline c [⟨.rightBracket :: .newline :: openers, []⟩]
        (.rightBracket :: openers)
      if first.kind == .rightBracket then return (.array token.position [], c)
      else
        let (items, c) ← readItems first fuel c
        return (.array token.position items, c)
    | _ => return (.scalar token, c)

/-- The members of an object from a key already taken, up to its closing brace. -/
def readMembers (key : Token) :
    (fuel : Nat) → Cursor → Except SyntaxError (List (Token × Value) × Cursor)
  | 0, c => .error (exhausted c)
  | fuel + 1, c => do
    let (_, c) ← c.expect [.colon]
    let (token, c) ← c.expect openers
    let (value, c) ← readFrom token fuel c
    let (next, c) ← expectPastNewline c [followers, ⟨[.comma, .rightBrace, .newline], []⟩]
      [.comma, .rightBrace]
    if next.kind == .rightBrace then return ([(key, value)], c)
    else
      let (nextKey, c) ← expectPastNewline c [⟨[.string, .newline], []⟩] [.string]
      let (members, c) ← readMembers nextKey fuel c
      return ((key, value) :: members, c)

/-- The items of an array from a token already taken, up to its closing bracket. -/
def readItems (first : Token) :
    (fuel : Nat) → Cursor → Except SyntaxError (List Value × Cursor)
  | 0, c => .error (exhausted c)
  | fuel + 1, c => do
    let (item, c) ← readFrom first fuel c
    let (next, c) ← expectPastNewline c [followers, ⟨[.comma, .rightBracket, .newline], []⟩]
      [.comma, .rightBracket]
    if next.kind == .rightBracket then return ([item], c)
    else
      let (token, c) ← expectPastNewline c [⟨.newline :: openers, []⟩] openers
      let (items, c) ← readItems token fuel c
      return (item :: items, c)

end

/-- The value at a cursor. Two units of fuel for each character are enough. -/
def read (c : Cursor) : Except SyntaxError (Value × Cursor) := do
  let (token, after) ← c.expect openers
  readFrom token (2 * c.bound) after

end Value

end CommandSequence.Source
