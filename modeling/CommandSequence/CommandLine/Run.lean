import CommandSequence.Character.Lowercase
import CommandSequence.CommandLine.Options
import CommandSequence.Document.OfJson
import CommandSequence.Document.ToJson
import CommandSequence.Files.Tree
import CommandSequence.Note

/-!
# Converting a file

The suffix of the input file decides the direction: sequence text becomes JSON, and JSON becomes
sequence text. The conversion is the same over any file system; over a file tree it is a function,
and its only change to a file is the output that it writes at the very end.
-/

namespace CommandSequence

/-- What a conversion needs of the files around it. -/
structure FileSystem (m : Type → Type) where
  present : Path → m (Except FileError Bool)
  makeDirectories : Path → m (Option FileError)
  read : Path → m (Except FileError ByteArray)
  write : Path → ByteArray → m (Option FileError)
  note : Note → m Unit

/-- What nobody has foreseen. -/
inductive Failure where
  /-- There is no word for the input file. -/
  | noInputFile
  /-- The input cannot be looked for. -/
  | input (e : FileError)
  /-- The output directory cannot be made. -/
  | outputDirectory (e : FileError)
  /-- There is no word for the output directory. -/
  | noOutputDirectory
  /-- Nothing can be where the output is to go. -/
  | impossibleOutput
  /-- The input is not UTF-8. -/
  | encoding
  /-- The output holds half of a surrogate pair, for which UTF-8 has no bytes. -/
  | unencodable
  /-- The library that dumps documents refuses this one. -/
  | undumped
  /-- The name of the input leaves no name for the output. -/
  | noOutputName
  /-- An integer literal is too long to be read. -/
  | longLiteral
  /-- An integer is too long to be written. -/
  | longInteger
deriving DecidableEq, Repr

/-- How a conversion of a file ends. -/
inductive Ending where
  | finished
  | stopped (complaint : String)
  | failed (cause : Failure)
deriving DecidableEq, Repr

namespace Ending

/-- The exit status of an ending that has one. -/
def status? : Ending → Option Nat
  | .finished => some 0
  | .stopped _ => some 1
  | .failed _ => none

end Ending

namespace CommandLine

/-! ## Names -/

/-- The suffixes of sequence text, in lower case. -/
def textSuffixes : List (List Char) := [String.toList ".seqn", String.toList ".txt"]

/-- The suffixes of JSON, in lower case. -/
def jsonSuffixes : List (List Char) := [String.toList ".json"]

/-- The suffix of a name in lower case. -/
def lowerSuffix (name : List Char) : List Char :=
  Character.lowercase (Path.suffix name)

/-- The direction that a suffix in lower case asks for. -/
def direction? (suffix : List Char) : Option Direction :=
  if textSuffixes.contains suffix then some .compile
  else if jsonSuffixes.contains suffix then some .decompile
  else none

/-- The name that the output of an input has unless another one is given. -/
def defaultName (direction : Direction) (name : List Char) : Except Failure (List Char) :=
  match direction with
  | .compile => .ok (Path.stem name ++ String.toList ".json")
  | .decompile =>
    let stem := Path.stem name
    if stem = [('.' : Char)] then .error .noOutputName
    else .ok (Path.stem stem ++ String.toList ".seqn")

/-- The output file of options, in the output directory. -/
def outputPath (o : Options) (directory : Path) (defaultName : List Char) : Path :=
  directory.join (.ofText (if o.outputFile.isEmpty then defaultName else o.outputFile))

/-! ## Texts -/

/-- The text of a file in UTF-8, every line end read as a line feed. -/
def decode? (content : ByteArray) : Option (List Char) :=
  (String.fromUTF8? content).map fun s => Lines.universal (String.literal s).toList

/-- A text in UTF-8, if it holds no half of a surrogate pair. -/
def encode? (text : List Char) : Option ByteArray :=
  (String.ofList text).toLiteral?.map fun s => s.toUTF8

/-- What a file holds after a text is written to it: the text in UTF-8, or nothing if it has no
bytes there. -/
def encode (text : List Char) : ByteArray :=
  (encode? text).getD ByteArray.empty

/-- A text converted: the document in it, the output, and the notes taken on the way. -/
structure Conversion where
  notes : List Note
  result : Except Ending (Document × List Char)

/-- How an error in a text ends a conversion. -/
def ofTextError (text : List Char) : TextError → Ending
  | .grammar e => .stopped ("Parse error: " ++ e.message (Lines.terminate text))
  | .fault ⟨.integerTooLong, _⟩ => .failed .longLiteral
  | .fault f => .stopped ("Conversion error: " ++ f.message)

/-- How an error in writing ends a conversion. -/
def ofWriteError (e : WriteError) : Ending :=
  match e.message? with
  | some message => .stopped ("Conversion error: " ++ message)
  | none => .failed .longInteger

/-- Converts a text. The JSON of a document ends in a line feed. The library that dumps documents as
JSON refuses some, such as those whose metadata nests too deep for it: `refuses` tells which. -/
def convert (refuses : Document → Bool) (s : Settings) (direction : Direction) (text : List Char) :
    Conversion :=
  match direction with
  | .compile => ⟨Note.ofText s.validateTimeTags text,
    match Document.ofText s.validateTimeTags text with
    | .error e => .error (ofTextError text e)
    | .ok d =>
      if refuses d then .error (.failed .undumped)
      else .ok (d, d.toJsonText (some 2) ++ [('\n' : Char)])⟩
  | .decompile =>
    match Document.ofJsonText text with
    | .error f => ⟨[], .error (ofTextError text (.fault f))⟩
    | .ok d => ⟨Note.ofWriting s.indent d,
      match d.write s.indent with
      | .error e => .error (ofWriteError e)
      | .ok written => .ok (d, written)⟩

/-! ## The conversion of a file -/

section

variable {m : Type → Type} [Monad m]

/-- Passes on the notes that are shown. -/
def report (fs : FileSystem m) (verbosity : Nat) : List Note → m Unit
  | [] => pure ()
  | n :: rest => do
    if n.isShown verbosity then fs.note n
    report fs verbosity rest

/-- Writes the output and reports on it. -/
def finish (fs : FileSystem m) (o : Options) (target : Path) (d : Document) (text : List Char) :
    m Ending := do
  if target.isPossible then
    -- The file is opened, and so emptied, before the text is encoded.
    match ← fs.write target (encode text) with
    | some e => return .stopped ("Error writing output file: " ++ e.message target)
    | none =>
      if (encode? text).isNone then return .failed .unencodable
      report fs o.verbosity [.wrote text.length target, .succeeded, .sequence d.id,
        .steps d.steps.length, .requests d.requests.length, .target target]
      return .finished
  else return .failed .impossibleOutput

/-- Reads the input, converts it and writes the output. -/
def process (fs : FileSystem m) (refuses : Document → Bool) (s : Settings) (o : Options)
    (direction : Direction) (source target : Path) : m Ending := do
  report fs o.verbosity [.reading]
  match ← fs.read source with
  | .error e => return .stopped ("Error reading input file: " ++ e.message source)
  | .ok content =>
    match decode? content with
    | none => return .failed .encoding
    | some text =>
      report fs o.verbosity [.read text.length source.name, .converting direction]
      let conversion := convert refuses s direction text
      report fs o.verbosity conversion.notes
      match conversion.result with
      | .error ending => return ending
      | .ok (d, written) => finish fs o target d written

/-- Makes sure of the output directory and goes on with the output's name. -/
def prepare (fs : FileSystem m) (refuses : Document → Bool) (s : Settings) (o : Options)
    (direction : Direction) (source : Path) (name : List Char) : m Ending := do
  match o.outputDirectory with
  | none => return .failed .noOutputDirectory
  | some directory =>
    if directory.isPossible then
      match ← fs.makeDirectories directory with
      | some e => return .failed (.outputDirectory e)
      | none =>
        let target := outputPath o directory name
        report fs o.verbosity [.output target]
        process fs refuses s o direction source target
    else return .failed .impossibleOutput

/-- Chooses the direction of the conversion of a file that is there, and goes on with it. -/
def direct (fs : FileSystem m) (refuses : Document → Bool) (s : Settings) (o : Options)
    (source : Path) : m Ending := do
  report fs o.verbosity [.input source]
  let suffix := lowerSuffix source.name
  match direction? suffix with
  | none => return .stopped ("Error: Unrecognized input extension "
      ++ String.ofList (Shown.quote suffix) ++ " (expected .seqn, .txt or .json)")
  | some direction =>
    match defaultName direction source.name with
    | .error cause => return .failed cause
    | .ok name => prepare fs refuses s o direction source name

/-- Whether something is at a path. -/
def look (fs : FileSystem m) (p : Path) : m (Except FileError Bool) :=
  if p.isPossible then fs.present p else pure (.ok false)

/-- Converts a file as options ask for it. -/
def run (fs : FileSystem m) (refuses : Document → Bool) (s : Settings) (o : Options) :
    m Ending := do
  report fs o.verbosity [.checking]
  match o.inputFile with
  | none => return .failed .noInputFile
  | some file =>
    let source := o.inputDirectory.join (.ofText file)
    match ← look fs source with
    | .error e => return .failed (.input e)
    | .ok true => direct fs refuses s o source
    | .ok false =>
      return .stopped ("Error: Input file not found: " ++ String.ofList source.toText)

end

/-! ## Over a file tree -/

/-- A file tree and the notes taken so far. -/
structure Session where
  tree : FileTree
  notes : List Note

/-- The file system of a file tree. -/
def treeSystem : FileSystem (StateM Session) where
  present p := fun session => (session.tree.present p, session)
  makeDirectories p := fun session =>
    let (tree, error) := session.tree.makeDirectories p
    (error, { session with tree })
  read p := fun session => (session.tree.read p, session)
  write p content := fun session =>
    match session.tree.write p content with
    | .ok tree => (none, { session with tree })
    | .error e => (some e, session)
  note n := fun session => ((), { session with notes := session.notes ++ [n] })

/-- Converts a file of a tree: how that ends, the tree afterwards and the notes. -/
def runOn (refuses : Document → Bool) (s : Settings) (o : Options) (tree : FileTree) :
    Ending × Session :=
  run treeSystem refuses s o ⟨tree, []⟩

end CommandLine

end CommandSequence
