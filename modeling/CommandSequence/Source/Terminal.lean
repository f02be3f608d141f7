import CommandSequence.Number.Numeral
import CommandSequence.Text.Shown

/-!
# Terminals of sequence text

The kinds of tokens and how each is cut off the front of a text. Which kinds compete at a place is
the reader's affair; among those that do, `Terminal.all` gives the order in which they are tried, so
that a time tag, a truth value or null wins over an identifier that is spelled alike.
-/

namespace CommandSequence.Source

open Character

/-- The kinds of tokens, in the order in which they are tried, and the end of the text. -/
inductive Terminal where
  | hex
  | absoluteTime
  | commandComplete
  | commandRelative
  | epochRelative
  | groundEpoch
  | boolean
  | null
  | number
  | string
  | identifier
  | description
  | newline
  | id
  | loadAndGo
  | parametersBegin
  | parametersEnd
  | localsBegin
  | localsEnd
  | activate
  | load
  | groundBlock
  | groundEvent
  | engine
  | epoch
  | requestBegin
  | requestEnd
  | immediate
  | hardware
  | metadata
  | model
  | leftParenthesis
  | rightParenthesis
  | leftBracket
  | rightBracket
  | leftBrace
  | rightBrace
  | colon
  | comma
  | endOfInput
deriving DecidableEq, Repr

namespace Terminal

/-- The kinds of tokens in the order in which they are tried. -/
def all : List Terminal := [.hex, .absoluteTime, .commandComplete, .commandRelative, .epochRelative,
  .groundEpoch, .boolean, .null, .number, .string, .identifier, .description, .newline, .id,
  .loadAndGo, .parametersBegin, .parametersEnd, .localsBegin, .localsEnd, .activate, .load,
  .groundBlock, .groundEvent, .engine, .epoch, .requestBegin, .requestEnd, .immediate, .hardware,
  .metadata, .model, .leftParenthesis, .rightParenthesis, .leftBracket, .rightBracket, .leftBrace,
  .rightBrace, .colon, .comma]

/-- The order in which a message lists what was expected. -/
def listed : List Terminal := [.endOfInput, .absoluteTime, .boolean, .colon, .comma,
  .commandComplete, .commandRelative, .description, .epochRelative, .groundEpoch, .hex, .identifier,
  .leftBrace, .leftParenthesis, .leftBracket, .null, .number, .rightBrace, .rightParenthesis,
  .rightBracket, .string, .newline, .id, .loadAndGo, .engine, .epoch, .requestBegin, .requestEnd,
  .immediate, .hardware, .metadata, .model, .parametersBegin, .parametersEnd, .localsBegin,
  .localsEnd, .activate, .load, .groundBlock, .groundEvent]

/-- The text of a kind that has only one. -/
def literal? : Terminal → Option String
  | .id => some "@ID"
  | .loadAndGo => some "@LOAD_AND_GO"
  | .parametersBegin => some "@INPUT_PARAMS_BEGIN"
  | .parametersEnd => some "@INPUT_PARAMS_END"
  | .localsBegin => some "@LOCALS_BEGIN"
  | .localsEnd => some "@LOCALS_END"
  | .activate => some "@ACTIVATE"
  | .load => some "@LOAD"
  | .groundBlock => some "@GROUND_BLOCK"
  | .groundEvent => some "@GROUND_EVENT"
  | .engine => some "@ENGINE"
  | .epoch => some "@EPOCH"
  | .requestBegin => some "@REQUEST_BEGIN"
  | .requestEnd => some "@REQUEST_END"
  | .immediate => some "@IMMEDIATE"
  | .hardware => some "@HARDWARE"
  | .metadata => some "@METADATA"
  | .model => some "@MODEL"
  | .leftParenthesis => some "("
  | .rightParenthesis => some ")"
  | .leftBracket => some "["
  | .rightBracket => some "]"
  | .leftBrace => some "\x7b"
  | .rightBrace => some "\x7d"
  | .colon => some ":"
  | .comma => some ","
  | _ => none

/-- The name of a kind. -/
def name : Terminal → String
  | .hex => "HEX"
  | .absoluteTime => "ABSOLUTE_TIME"
  | .commandComplete => "COMMAND_COMPLETE"
  | .commandRelative => "COMMAND_RELATIVE_TIME"
  | .epochRelative => "EPOCH_RELATIVE_TIME"
  | .groundEpoch => "GROUND_EPOCH_TIME"
  | .boolean => "BOOLEAN"
  | .null => "NULL"
  | .number => "NUMBER"
  | .string => "STRING"
  | .identifier => "IDENTIFIER"
  | .description => "DESCRIPTION"
  | .newline => "_NL"
  | .endOfInput => "end of input"
  | kind => kind.literal?.getD ""

/-- A kind as a message shows it: what would have to be typed, or its name. -/
def shown (kind : Terminal) : String :=
  match kind.literal? with
  | some text => Shown.string text
  | none => kind.name

/-! ## Cutting tokens -/

/-- Blanks inside a line. -/
def isBlank (c : Char) : Bool :=
  c == ' ' || c == '\t'

/-- A given text at the front. -/
def cutLiteral? (word text : List Char) : Option (List Char × List Char) :=
  if word.isPrefixOf text then some (word, text.drop word.length) else none

/-- Whether no word character stands here. -/
def endsWord : List Char → Bool
  | [] => true
  | c :: _ => !isWord c

/-- A given word at the front, which must not continue. -/
def cutWord? (word text : List Char) : Option (List Char × List Char) :=
  (cutLiteral? word text).filter fun (_, left) => endsWord left

/-- Whether the text begins with an ASCII digit. -/
def beginsWithDigit : List Char → Bool
  | [] => false
  | c :: _ => isAsciiDigit c

/-- The body of a time tag: nothing, or a digit, after a sign where one is allowed, and further
characters of a class. -/
def cutTagBody (sign : Char → Bool) (inner : Char → Bool) (text : List Char) :
    List Char × List Char :=
  match text with
  | [] => ([], [])
  | c :: rest =>
    if sign c && beginsWithDigit rest then (c :: rest.takeWhile inner, rest.dropWhile inner)
    else if isAsciiDigit c then (text.takeWhile inner, text.dropWhile inner)
    else ([], text)

/-- A time tag: its letter and its body, before a blank. -/
def cutTag? (letter : Char) (sign inner : Char → Bool) : List Char → Option (List Char × List Char)
  | [] => none
  | c :: rest =>
    let (body, left) := cutTagBody sign inner rest
    if c == letter && left.head?.any isBlank then some (c :: body, left) else none

/-- The characters of a clock in a time tag. -/
def isClock (c : Char) : Bool :=
  isAsciiDigit c || c == ':' || c == '.' || c == 'T'

/-- The characters of a timestamp in a time tag. -/
def isTimestamp (c : Char) : Bool :=
  isClock c || c == '-'

/-- Whether the character is a sign. -/
def isSign (c : Char) : Bool :=
  c == '+' || c == '-'

/-- A hexadecimal literal, which must not continue as a word. -/
def cutHex? : List Char → Option (List Char × List Char)
  | '0' :: x :: rest =>
    let isHex (c : Char) : Bool := (hexValue? c).isSome
    let digits := rest.takeWhile isHex
    let left := rest.dropWhile isHex
    if (x == 'x' || x == 'X') && !digits.isEmpty && endsWord left then
      some ('0' :: x :: digits, left)
    else none
  | _ => none

/-- A quoted string after its opening quote. It stays on its line, and a backslash keeps the
character after it from ending it. -/
def cutStringTail? : List Char → Option (List Char × List Char)
  | [] => none
  | ['\\'] => none
  | '\\' :: c :: rest =>
    if c == '\n' then none
    else (cutStringTail? rest).map fun (body, left) => ('\\' :: c :: body, left)
  | c :: rest =>
    if c == '"' then some (['"'], rest)
    else if c == '\n' || c == '\r' then none
    else (cutStringTail? rest).map fun (body, left) => (c :: body, left)

/-- A quoted string. -/
def cutString? : List Char → Option (List Char × List Char)
  | '"' :: rest => (cutStringTail? rest).map fun (body, left) => ('"' :: body, left)
  | _ => none

/-- Whether the character can stand in a comment. -/
def inComment (c : Char) : Bool :=
  c != '\n' && c != '\r'

/-- A comment up to the end of its line. -/
def cutDescription? : List Char → Option (List Char × List Char)
  | '#' :: rest => some ('#' :: rest.takeWhile inComment, rest.dropWhile inComment)
  | _ => none

/-- An identifier. -/
def cutIdentifier? : List Char → Option (List Char × List Char)
  | c :: rest =>
    if isWordStart c then some (c :: rest.takeWhile isWord, rest.dropWhile isWord) else none
  | [] => none

/-- A line end together with the blank lines and comment lines that follow it, and the blanks that
begin the next line. `commented` tells whether a comment has begun. -/
def cutLineEnds (commented : Bool) : List Char → List Char × List Char
  | [] => ([], [])
  | '\r' :: '\n' :: rest =>
    let (ends, left) := cutLineEnds false rest
    ('\r' :: '\n' :: ends, left)
  | c :: rest =>
    if c == '\n' then
      let (ends, left) := cutLineEnds false rest
      (c :: ends, left)
    else if commented && c != '\r' then
      let (ends, left) := cutLineEnds true rest
      (c :: ends, left)
    else if !commented && isBlank c then
      let (ends, left) := cutLineEnds false rest
      (c :: ends, left)
    else if !commented && c == '#' then
      let (ends, left) := cutLineEnds true rest
      (c :: ends, left)
    else ([], c :: rest)

/-- Line ends. -/
def cutNewline? (text : List Char) : Option (List Char × List Char) :=
  if text.head? == some ('\n' : Char) || List.isPrefixOf [('\r' : Char), ('\n' : Char)] text then
    some (cutLineEnds false text)
  else none

/-- The token of a kind at the front of a text, and what is left after it. -/
def cut? (kind : Terminal) (text : List Char) : Option (List Char × List Char) :=
  match kind with
  | .hex => cutHex? text
  | .absoluteTime => cutTag? 'A' (fun _ => false) isTimestamp text
  | .commandComplete => cutTag? 'C' (fun _ => false) (fun _ => false) text
  | .commandRelative => cutTag? 'R' (fun _ => false) isClock text
  | .epochRelative => cutTag? 'E' isSign isClock text
  | .groundEpoch => cutTag? 'G' isSign isClock text
  | .boolean => (cutWord? (String.toList "true") text).or (cutWord? (String.toList "false") text)
  | .null => cutWord? (String.toList "null") text
  | .number => Numeral.cut? text
  | .string => cutString? text
  | .identifier => cutIdentifier? text
  | .description => cutDescription? text
  | .newline => cutNewline? text
  | kind => kind.literal?.bind fun word => cutLiteral? word.toList text

end Terminal

end CommandSequence.Source
