import CommandSequence.Text.Cut

/-!
# Clock tags and the grammars of time tags

A clock tag is an offset written `[+-][DDD][T]hh:mm:[ss][.f]`. A time tag of a step is checked
against one of five grammars: the absolute timestamp, the clock tag with or without a sign, and the
decimal count of seconds with or without a sign. Either form may end in one line feed.
-/

namespace CommandSequence

open Character

/-- The pieces of a clock tag, as written. A missing piece is empty. -/
structure ClockTag where
  negative : Bool
  days : List Char
  hours : List Char
  minutes : List Char
  seconds : List Char
  fraction : List Char
deriving DecidableEq, Repr

namespace ClockTag

/-- The part of a tag after its day: `[T]hh:mm:[ss][.f]`. -/
def readClock? (negative : Bool) (days text : List Char) : Option ClockTag := do
  let (hours, rest) ← Cut.exactly? isAsciiDigit 2 (Cut.skipChar 'T' text)
  let (minutes, rest) ← Cut.exactly? isAsciiDigit 2 (← Cut.char? ':' rest)
  let rest ← Cut.char? ':' rest
  let (seconds, rest) := (Cut.exactly? isAsciiDigit 2 rest).getD ([], rest)
  let rest := Cut.skipChar '.' rest
  let fraction := rest.takeWhile isAsciiDigit
  if Cut.atEnd (rest.dropWhile isAsciiDigit) then
    some ⟨negative, days, hours, minutes, seconds, fraction⟩
  else none

/-- A tag without a sign; three digits that are followed by a clock are its day. -/
def readUnsigned? (negative : Bool) (text : List Char) : Option ClockTag :=
  ((Cut.exactly? isAsciiDigit 3 text).bind fun (days, rest) => readClock? negative days rest)
    <|> readClock? negative [] text

/-- The pieces of a clock tag. -/
def read? : List Char → Option ClockTag
  | '-' :: rest => readUnsigned? true rest
  | '+' :: rest => readUnsigned? false rest
  | text => readUnsigned? false text

end ClockTag

/-- The grammars that a time tag can be checked against. -/
inductive TagGrammar where
  /-- `YYYY-DDDThh:mm:ss[.mmm]` -/
  | absolute
  /-- a clock tag -/
  | epoch
  /-- a clock tag without a sign -/
  | relative
  /-- a decimal count of seconds -/
  | epochSimple
  /-- a decimal count of seconds without a sign -/
  | relativeSimple
deriving DecidableEq, Repr

namespace TagGrammar

/-- Every grammar. -/
def all : List TagGrammar := [.absolute, .epoch, .relative, .epochSimple, .relativeSimple]

/-- The name of a grammar. -/
def name : TagGrammar → String
  | .absolute => "ABSOLUTE"
  | .epoch => "EPOCH"
  | .relative => "RELATIVE"
  | .epochSimple => "EPOCH_SIMPLE"
  | .relativeSimple => "RELATIVE_SIMPLE"

/-- The grammar of a name. -/
def ofName? (s : String) : Option TagGrammar :=
  all.find? (·.name == s)

/-- Whether the text begins with a sign. -/
def signed : List Char → Bool
  | c :: _ => c == '+' || c == '-'
  | [] => false

/-- Whether the text is `YYYY-DDDThh:mm:ss[.mmm]`. -/
def isAbsolute (text : List Char) : Bool :=
  let clock? : Option (List Char) := do
    let (_, rest) ← Cut.exactly? isDigit 4 text
    let (_, rest) ← Cut.exactly? isDigit 3 (← Cut.char? '-' rest)
    let (_, rest) ← Cut.exactly? isDigit 2 (← Cut.char? 'T' rest)
    let (_, rest) ← Cut.exactly? isDigit 2 (← Cut.char? ':' rest)
    let (_, rest) ← Cut.exactly? isDigit 2 (← Cut.char? ':' rest)
    return rest
  match clock? with
  | none => false
  | some rest => Cut.atEnd rest ||
    match (Cut.char? '.' rest).bind (Cut.exactly? isDigit 3) with
    | some (_, rest) => Cut.atEnd rest
    | none => false

/-- Whether the text is a decimal count, `digits[.digits]`. -/
def isCount (text : List Char) : Bool :=
  match Cut.run? isDigit text with
  | none => false
  | some (_, rest) => Cut.atEnd rest ||
    match (Cut.char? '.' rest).bind (Cut.run? isAsciiDigit) with
    | some (_, rest) => Cut.atEnd rest
    | none => false

/-- Whether a tag satisfies a grammar. -/
def accepts (g : TagGrammar) (text : List Char) : Bool :=
  match g with
  | .absolute => isAbsolute text
  | .epoch => (ClockTag.read? text).isSome
  | .relative => !signed text && (ClockTag.read? text).isSome
  | .epochSimple => isCount (if signed text then text.drop 1 else text)
  | .relativeSimple => isCount text

end TagGrammar

end CommandSequence
