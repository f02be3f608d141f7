import CommandSequence.Character.Digit
import CommandSequence.Files.Path

/-!
# The options of the command line

The words of a command line are two directories and some flags. A long flag can be shortened as far
as it stays the only one of its beginning, and takes its value after an equals sign or as the next
word; short flags can be run together, with an equals sign after the first of them or without. Words
after `--` are never flags; a further `--` among them stands for no word at all, and so does `--`
after an equals sign. The flags for help and version end the reading where they stand, so that what
comes before them can still be at fault but not what is missing.
-/

namespace CommandSequence

/-- What a conversion is asked to do. -/
structure Options where
  inputDirectory : Path
  /-- none if the word for it stands for no word at all -/
  outputDirectory : Option Path
  /-- none if the word for it stands for no word at all -/
  inputFile : Option (List Char)
  /-- empty for the default name -/
  outputFile : List Char
  /-- how much is reported -/
  verbosity : Nat
deriving DecidableEq

/-- What a command line asks for. -/
inductive Invocation where
  | convert (options : Options)
  | help
  | version
  /-- The words make no command line. -/
  | misuse
deriving DecidableEq

namespace CommandLine

/-- The flags. -/
inductive Flag where
  | help
  | inputFile
  | outputFile
  | verbosity
  | version
deriving DecidableEq, Repr

/-- The spellings of flags, those of one letter included. -/
def spellings : List (String × Flag) := [("-h", .help), ("--help", .help),
  ("--inputFile", .inputFile), ("--outputFile", .outputFile), ("-v", .verbosity),
  ("--verbosity", .verbosity), ("-V", .version), ("--version", .version)]

/-- Whether a flag has a value. -/
def Flag.hasValue : Flag → Bool
  | .inputFile | .outputFile => true
  | _ => false

/-- The flag of a spelling. -/
def ofSpelling? (text : List Char) : Option Flag :=
  spellings.lookup (String.ofList text)

/-- A word of a command line. -/
inductive Word where
  /-- A word that is no flag. -/
  | plain (text : List Char)
  /-- The mark after which there are no flags. -/
  | separator
  /-- A single flag, with the value that is attached to it. -/
  | single (flag : Flag) (attached : Option (List Char))
  /-- The letters of short flags, the first of them one that there is. -/
  | short (letters : List Char)
  /-- A flag that there is not. -/
  | unknown
deriving DecidableEq

/-! ## The kinds of words -/

/-- The separator's text. -/
def separatorText : List Char := ['-', '-']

/-- The text before the first equals sign, and what follows it. -/
def splitEquals (text : List Char) : List Char × Option (List Char) :=
  match text.dropWhile (· != ('=' : Char)) with
  | _ :: value => (text.takeWhile (· != ('=' : Char)), some value)
  | [] => (text, none)

/-- Whether a text is a negative number, `-d` or `-[d].d`. -/
def isNegativeNumber : List Char → Bool
  | '-' :: rest =>
    let bare := if rest.getLast? == some ('\n' : Char) then rest.dropLast else rest
    let whole := bare.takeWhile Character.isDigit
    match bare.dropWhile Character.isDigit with
    | [] => !whole.isEmpty
    | '.' :: digits => !digits.isEmpty && digits.all Character.isDigit
    | _ => false
  | _ => false

/-- What a word is that begins like a flag but is the spelling of none. -/
def unspelled (text : List Char) : Word :=
  if isNegativeNumber text || text.contains ' ' then .plain text else .unknown

/-- What a word with two dashes is; nothing if it shortens more than one flag. -/
def classifyLong (text : List Char) : Option Word :=
  let (spelling, attached) := splitEquals text
  match ofSpelling? spelling with
  | some flag => some (.single flag attached)
  | none =>
    match spellings.filter fun (s, _) => spelling.isPrefixOf s.toList with
    | [] => some (unspelled text)
    | [(_, flag)] => some (.single flag attached)
    | _ => none

/-- What a word with one dash is. -/
def classifyShort (letter : Char) (rest text : List Char) : Word :=
  match ofSpelling? ['-', letter], rest with
  | none, _ => unspelled text
  | some flag, ['='] => .single flag (some [])
  | some _, '=' :: letters => .short (letter :: letters)
  | some _, letters => .short (letter :: letters)

/-- What a word is that stands before any separator; nothing if it shortens more than one flag. -/
def classify (text : List Char) : Option Word :=
  match text with
  | '-' :: '-' :: [] => some .separator
  | '-' :: '-' :: _ =>
    match ofSpelling? text with
    | some flag => some (.single flag none)
    | none => classifyLong text
  | '-' :: letter :: rest => some (classifyShort letter rest text)
  | _ => some (.plain text)

/-- What the words of a command line are; nothing if one of them shortens more than one flag. -/
def classifyAll : List (List Char) → Option (List Word)
  | [] => some []
  | text :: rest => do
    match ← classify text with
    | .separator => return .separator :: rest.map .plain
    | word => return word :: (← classifyAll rest)

/-! ## Reading the words -/

/-- What has been read of a command line. -/
structure Reading where
  directories : List (Option (List Char)) := []
  /-- the value of the flag, once there is one, which may stand for no word at all -/
  inputFile : Option (Option (List Char)) := none
  outputFile : List Char := []
  verbosity : Nat := 1
  /-- whether there were words without a meaning -/
  surplus : Bool := false

/-- The directories still missing. -/
def Reading.missing (r : Reading) : Nat :=
  2 - r.directories.length

/-- The reading after a directory, or after a word that stands for none. -/
def Reading.withDirectory (r : Reading) (directory : Option (List Char)) : Reading :=
  { r with directories := r.directories ++ [directory] }

/-- What a word stands for: the separator's text is no word. -/
def meant (text : List Char) : Option (List Char) :=
  if text = separatorText then none else some text

/-- The reading after a flag's value. -/
def Reading.withValue (r : Reading) (flag : Flag) (value : List Char) : Reading :=
  if flag = .inputFile then { r with inputFile := some (meant value) }
  else { r with outputFile := (meant value).getD [] }

/-- The reading after a flag without a value. -/
def Reading.withFlag (r : Reading) : Flag → Except Invocation Reading
  | .help => .error .help
  | .version => .error .version
  | _ => .ok { r with verbosity := r.verbosity + 1 }

/-- The word for a directory at the front, which a separator may precede or follow. -/
def cutDirectory? : List Word → Option (Option (List Char) × List Word)
  | .separator :: .plain text :: rest => some (some text, rest)
  | .plain text :: .separator :: rest => some (some text, rest)
  | .plain text :: rest => some (meant text, rest)
  | _ => none

/-- As many directories as are missing and stand at the front. -/
def takeDirectories : (count : Nat) → Reading → List Word → Reading × List Word
  | 0, r, words => (r, words)
  | count + 1, r, words =>
    match cutDirectory? words with
    | none => (r, words)
    | some (directory, rest) => takeDirectories count (r.withDirectory directory) rest

/-- The reading after the last words, among which there is no flag. -/
def Reading.withTail (r : Reading) (words : List Word) : Reading :=
  let (r, rest) := takeDirectories r.missing r words
  { r with surplus := r.surplus || !rest.isEmpty }

/-- The flags of a run of letters, each of which must be one. -/
def shortFlags? (letters : List Char) : Option (List Flag) :=
  letters.mapM fun letter => ofSpelling? ['-', letter]

/-- The reading after all words. The words that are no flags are directories as far as they are
missing; any further ones are surplus. -/
def readWords (r : Reading) : List Word → Except Invocation Reading
  | [] => .ok r
  | .unknown :: rest => readWords { r with surplus := true } rest
  | .short letters :: rest =>
    match shortFlags? letters with
    | none => .error .misuse
    | some flags => do readWords (← flags.foldlM Reading.withFlag r) rest
  | .single flag attached :: rest =>
    if flag.hasValue then
      match attached, rest with
      | some value, rest => readWords (r.withValue flag value) rest
      | none, .plain value :: rest => readWords (r.withValue flag value) rest
      | none, _ => .error .misuse
    else if attached.isSome then .error .misuse
    else do readWords (← r.withFlag flag) rest
  | .plain text :: .separator :: rest => .ok (r.withTail (.plain text :: .separator :: rest))
  | .plain text :: rest =>
    if r.missing = 0 then readWords { r with surplus := true } rest
    else readWords (r.withDirectory (some text)) rest
  | .separator :: rest => .ok (r.withTail (.separator :: rest))

/-- What a reading amounts to. -/
def Reading.invocation (r : Reading) : Invocation :=
  match r.directories, r.inputFile, r.surplus with
  | [some input, output], some inputFile, false =>
    .convert ⟨.ofText input, output.map Path.ofText, inputFile, r.outputFile, r.verbosity⟩
  | _, _, _ => .misuse

/-- What a command line asks for. -/
def read (words : List (List Char)) : Invocation :=
  match classifyAll words with
  | none => .misuse
  | some words =>
    match readWords {} words with
    | .ok r => r.invocation
    | .error invocation => invocation

end CommandLine

end CommandSequence
