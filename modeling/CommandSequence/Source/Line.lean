import CommandSequence.Source.Place
import CommandSequence.Source.Value

/-!
# Lines

Sequence text is read line by line. `Line.read` takes the line at a place and gives the place of the
next one; the lines of a text are what it takes until the text ends (`readLines`). A line keeps the
tokens that carry meaning and the place where it begins.
-/

namespace CommandSequence.Source

/-- An argument as written: a single token, or a bracketed group of them. -/
inductive Argument where
  | single (token : Token)
  | group (position : Position) (items : List Token)
deriving DecidableEq, Repr

/-- Where an argument begins. -/
def Argument.position : Argument → Position
  | .single token => token.position
  | .group p _ => p

/-- What a step does. -/
inductive StepKind where
  | command
  | activate
  | load
  | groundBlock
  | groundEvent
deriving DecidableEq, Repr

/-- A step's line: its time tag, what it does to the subject it names, its arguments and its
description. -/
structure StepLine where
  tag : Token
  kind : StepKind
  position : Position
  subject : Token
  arguments : List Argument
  description : Option Token
deriving DecidableEq, Repr

/-- When a request begins: at a time tag, or at an offset from a named ground epoch. -/
inductive Timing where
  | tag (token : Token)
  | groundEpoch (token name : Token)
deriving DecidableEq, Repr

/-- Where a timing begins. -/
def Timing.position : Timing → Position
  | .tag token => token.position
  | .groundEpoch token _ => token.position

/-- The line that opens a request. -/
structure RequestLine where
  timing : Timing
  name : Token
  description : Option Token
deriving DecidableEq, Repr

/-- A metadata line: a key and a value. -/
structure MetadataLine where
  position : Position
  key : Token
  value : Value

/-- A model line: a variable, its value and an offset. -/
structure ModelLine where
  position : Position
  variableName : Token
  value : Token
  offset : Token
deriving DecidableEq, Repr

/-- A directive of a step, request or command. -/
inductive Directive where
  | metadata (line : MetadataLine)
  | model (line : ModelLine)
  | engine (position : Position) (number : Token)
  | epoch (position : Position) (name : Token)

/-- The line of a command in a section; a hardware command has no arguments. -/
structure CommandLine where
  stem : Token
  arguments : List Argument
  description : Option Token
deriving DecidableEq, Repr

/-- A declaration: the variable's name, and the words and strings after it. -/
structure DeclarationItem where
  name : Token
  details : List Token
deriving DecidableEq, Repr

/-- The sections after the body. -/
inductive Section where
  | immediate
  | hardware
deriving DecidableEq, Repr

/-- A line of sequence text. -/
inductive Line where
  | blank
  | comment (text : Token)
  | id (position : Position) (name : Token)
  | loadAndGo (position : Position)
  | metadata (line : MetadataLine)
  | blockBegin (position : Position) (block : Block)
  | declaration (item : DeclarationItem)
  | blockEnd (block : Block)
  | step (line : StepLine)
  | directive (directive : Directive)
  | requestBegin (line : RequestLine)
  | requestEnd
  | sectionBegin (position : Position) (kind : Section)
  | command (kind : Section) (line : CommandLine)

namespace Line

/-! ## Pieces of lines -/

/-- The single-token arguments. -/
def argumentKinds : List Terminal := [.string, .number, .boolean, .hex, .identifier]

/-- What ends the part of a line before its description. -/
def endings : List Terminal := [.description, .newline]

/-- What may stand where an argument may. -/
def argumentLevel : Level := ⟨.leftBracket :: (argumentKinds ++ endings), []⟩

/-- What may stand where an item of a group may. -/
def itemLevel : Level := ⟨.rightBracket :: argumentKinds, []⟩

/-- What may follow a single-token argument wherever it stands. -/
def afterArgument : Level := ⟨.leftBracket :: .rightBracket :: (argumentKinds ++ endings), []⟩

/-- The items of a group, up to its closing bracket. -/
def readGroup (levels : List Level) :
    (fuel : Nat) → Cursor → Except SyntaxError (List Token × Cursor)
  | 0, c => .error (Value.exhausted c)
  | fuel + 1, c => do
    let (token, c) ← c.take levels
    if token.kind == .rightBracket then return ([], c)
    else
      let (items, c) ← readGroup [afterArgument, itemLevel] fuel c
      return (token :: items, c)

/-- The arguments of a line, and the token that ends them. -/
def readArguments (levels : List Level) :
    (fuel : Nat) → Cursor → Except SyntaxError (List Argument × Token × Cursor)
  | 0, c => .error (Value.exhausted c)
  | fuel + 1, c => do
    let (token, c) ← c.take levels
    if endings.contains token.kind then return ([], token, c)
    else if token.kind == .leftBracket then
      let (items, c) ← readGroup [itemLevel] (fuel + 1) c
      let (arguments, ending, c) ← readArguments [argumentLevel] fuel c
      return (.group token.position items :: arguments, ending, c)
    else
      let (arguments, ending, c) ← readArguments [afterArgument, argumentLevel] fuel c
      return (.single token :: arguments, ending, c)

/-- The description that a line's ending token is, with the line end after it. -/
def readEnding (ending : Token) (c : Cursor) : Except SyntaxError (Option Token × Cursor) := do
  if ending.kind == .description then
    let (_, c) ← c.expect [.newline]
    return (some ending, c)
  else return (none, c)

/-- The arguments and description that end a line. -/
def readTrailer (c : Cursor) : Except SyntaxError (List Argument × Option Token × Cursor) := do
  let (arguments, ending, c) ← readArguments [argumentLevel] (c.bound + 1) c
  let (description, c) ← readEnding ending c
  return (arguments, description, c)

/-- A description or none, and the line end. -/
def readDescription (c : Cursor) : Except SyntaxError (Option Token × Cursor) := do
  let (ending, c) ← c.expect endings
  readEnding ending c

/-- The line end alone. -/
def readNewline (c : Cursor) : Except SyntaxError Cursor := do
  let (_, c) ← c.expect [.newline]
  return c

/-- A string and the line end. -/
def readStringLine (c : Cursor) : Except SyntaxError (Token × Cursor) := do
  let (token, c) ← c.expect [.string]
  return (token, ← readNewline c)

/-- A string in parentheses. -/
def readParenthesized (c : Cursor) : Except SyntaxError (Token × Cursor) := do
  let (_, c) ← c.expect [.leftParenthesis]
  let (token, c) ← c.expect [.string]
  let (_, c) ← c.expect [.rightParenthesis]
  return (token, c)

/-- The words and strings of a declaration after its name: up to two words, then up to two
strings. -/
def readDeclaration : (words strings : Nat) → Cursor → Except SyntaxError (List Token × Cursor)
  | words + 1, strings, c => do
    let (token, c) ← c.expect [.identifier, .string, .newline]
    if token.kind == .newline then return ([], c)
    else if token.kind == .identifier then
      let (tokens, c) ← readDeclaration words strings c
      return (token :: tokens, c)
    else
      let (tokens, c) ← readDeclaration 0 (strings - 1) c
      return (token :: tokens, c)
  | 0, strings + 1, c => do
    let (token, c) ← c.expect [.string, .newline]
    if token.kind == .newline then return ([], c)
    else
      let (tokens, c) ← readDeclaration 0 strings c
      return (token :: tokens, c)
  | 0, 0, c => do
    return ([], ← readNewline c)

/-- The key and value of a metadata line. -/
def readMetadata (position : Position) (c : Cursor) :
    Except SyntaxError (MetadataLine × Cursor) := do
  let (key, c) ← c.expect [.string]
  let (value, c) ← Value.read c
  let (_, c) ← c.take [Value.followers, ⟨[.newline], []⟩]
  return (⟨position, key, value⟩, c)

/-- The variable, value and offset of a model line. -/
def readModel (position : Position) (c : Cursor) : Except SyntaxError (ModelLine × Cursor) := do
  let (variableName, c) ← c.expect [.string, .identifier]
  let (value, c) ← c.expect [.string, .number, .boolean]
  let (offset, c) ← readStringLine c
  return (⟨position, variableName, value, offset⟩, c)

/-- What a terminal after a time tag makes of a step. -/
def stepKind? : Terminal → Option StepKind
  | .identifier => some .command
  | .activate => some .activate
  | .load => some .load
  | .groundBlock => some .groundBlock
  | .groundEvent => some .groundEvent
  | _ => none

/-- What begins a step after its time tag. -/
def stepOpeners : List Terminal := [.identifier, .activate, .load, .groundBlock, .groundEvent]

/-- What may follow a time tag in a region: anywhere a step or a request, inside a request only a
step, after the body only a request. -/
def afterTag (region : Region) : List Level :=
  let anywhere : Level := ⟨.requestBegin :: stepOpeners, []⟩
  match region with
  | .request _ => [anywhere, ⟨stepOpeners, []⟩]
  | region => if region.isLate then [anywhere, ⟨[.requestBegin], []⟩] else [anywhere]

/-- The rest of a step's line. -/
def readStep (tag : Token) (kind : StepKind) (opener : Token) (c : Cursor) :
    Except SyntaxError (StepLine × Cursor) := do
  let (subject, c) ← if kind = .command then .ok (opener, c) else readParenthesized c
  let (arguments, description, c) ← readTrailer c
  return (⟨tag, kind, opener.position, subject, arguments, description⟩, c)

/-- The rest of a request's first line. -/
def readRequest (timing : Timing) (c : Cursor) : Except SyntaxError (RequestLine × Cursor) := do
  let (name, c) ← readParenthesized c
  let (description, c) ← readDescription c
  return (⟨timing, name, description⟩, c)

/-! ## Whole lines -/

/-- The place inside a request that begins in a region. -/
def insideRequest (region : Region) : Place :=
  { region := .request region.isLate }

/-- The region that a step or request leaves the text in. -/
def bodyRegion (region : Region) : Region :=
  match region with
  | .request late => .request late
  | region => if region.isLate then .trailer else .body

/-- The line that a time tag begins. -/
def readTimed (region : Region) (tag : Token) (c : Cursor) :
    Except SyntaxError (Line × Place × Cursor) := do
  let (opener, c) ← c.take (afterTag region)
  match stepKind? opener.kind with
  | some kind =>
    let (line, c) ← readStep tag kind opener c
    return (.step line, { region := bodyRegion region, tail := .step }, c)
  | none =>
    let (line, c) ← readRequest (.tag tag) c
    return (.requestBegin line, insideRequest region, c)

/-- The line that an identifier begins: a declaration, or a command of a section. -/
def readNamed (region : Region) (name : Token) (c : Cursor) :
    Except SyntaxError (Line × Place × Cursor) :=
  match region with
  | .immediate => do
    let (arguments, description, c) ← readTrailer c
    return (.command .immediate ⟨name, arguments, description⟩, { region, tail := .command }, c)
  | .hardware => do
    let (description, c) ← readDescription c
    return (.command .hardware ⟨name, [], description⟩, { region, tail := .command }, c)
  | region => do
    let (tokens, c) ← readDeclaration 2 2 c
    return (.declaration ⟨name, tokens⟩, { region, tail := .declaration }, c)

/-- The metadata line at a place: of the construct left open, or of the header. -/
def readMetadataLine (place : Place) (position : Position) (c : Cursor) :
    Except SyntaxError (Line × Place × Cursor) := do
  let (line, c) ← readMetadata position c
  if place.tail == .closed then
    return (.metadata line, { region := .header, afterMetadata := true }, c)
  else return (.directive (.metadata line), { place with afterMetadata := true }, c)

/-- The line that a token begins at a place, and the place after it. -/
def readFrom (place : Place) (first : Token) (c : Cursor) :
    Except SyntaxError (Line × Place × Cursor) := do
  let fresh (region : Region) : Place := { region }
  let resumed : Place := { place with afterMetadata := false }
  match first.kind with
  | .newline => return (.blank, fresh .opened, c)
  | .description => return (.comment first, fresh .opened, ← readNewline c)
  | .id =>
    let (name, c) ← readStringLine c
    return (.id first.position name, fresh .identified, c)
  | .loadAndGo => return (.loadAndGo first.position, fresh .header, ← readNewline c)
  | .parametersBegin =>
    return (.blockBegin first.position .parameters, fresh (.declarations .parameters),
      ← readNewline c)
  | .localsBegin =>
    return (.blockBegin first.position .locals, fresh (.declarations .locals), ← readNewline c)
  | .parametersEnd =>
    return (.blockEnd .parameters, fresh (Region.afterBlock .parameters), ← readNewline c)
  | .localsEnd => return (.blockEnd .locals, fresh (Region.afterBlock .locals), ← readNewline c)
  | .metadata => readMetadataLine place first.position c
  | .model =>
    let (line, c) ← readModel first.position c
    return (.directive (.model line), resumed, c)
  | .engine =>
    let (number, c) ← c.expect [.number]
    return (.directive (.engine first.position number), resumed, ← readNewline c)
  | .epoch =>
    let (name, c) ← readStringLine c
    return (.directive (.epoch first.position name), resumed, c)
  | .requestEnd =>
    let region := if place.region = .request true then .trailer else .body
    return (.requestEnd, { region, tail := .request }, ← readNewline c)
  | .immediate =>
    return (.sectionBegin first.position .immediate, fresh .immediate, ← readNewline c)
  | .hardware =>
    return (.sectionBegin first.position .hardware, fresh .hardware, ← readNewline c)
  | .groundEpoch =>
    let (name, c) ← c.expect [.string]
    let (_, c) ← c.expect [.requestBegin]
    let (line, c) ← readRequest (.groundEpoch first name) c
    return (.requestBegin line, insideRequest place.region, c)
  | .identifier => readNamed place.region first c
  | _ => readTimed place.region first c

/-- The line at a place, and the place after it; nothing at the end of the text. -/
def read (place : Place) (c : Cursor) : Except SyntaxError (Option (Line × Place × Cursor)) := do
  match ← c.read place.levels with
  | none => return none
  | some (first, c) => return some (← readFrom place first c)

/-- The lines from a place to the end of the text. -/
def readAll : (fuel : Nat) → Place → Cursor → Except SyntaxError (List Line)
  | 0, _, c => .error (Value.exhausted c)
  | fuel + 1, place, c => do
    match ← read place c with
    | none => return []
    | some (line, place, c) => return line :: (← readAll fuel place c)

end Line

/-- The lines of a text that ends in a line feed. -/
def readLines (text : List Char) : Except SyntaxError (List Line) :=
  let c := Cursor.ofText text
  Line.readAll (c.bound + 1) Place.start c

end CommandSequence.Source
