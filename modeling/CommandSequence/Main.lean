import CommandSequence.CommandLine.Run

/-!
# The program

The conversion of a file over the real file system, with settings from the environment. Notes and
complaints go to standard error.
-/

namespace CommandSequence.Main

/-- The kind of an input or output error. -/
def fileError : IO.Error → FileError
  | .alreadyExists .. => .exists
  | .inappropriateType _ code _ =>
    if code.toNat = FileError.isDirectory.code then .isDirectory else .notDirectory
  | .invalidArgument _ code _ =>
    if code.toNat = FileError.nameTooLong.code then .nameTooLong else .notFound
  | _ => .notFound

/-- A string in the form that the system takes. -/
def plain (s : String) : Literal :=
  Literal.ofList (s.toList.filterMap Char.scalar?)

/-- A string as the terminal shows it: half of a surrogate pair by its escape. -/
def visible (s : String) : Literal :=
  plain (String.ofList (s.toList.flatMap fun
    | .scalar c => [.scalar c]
    | .half index => Shown.escape '"' (.half index)))

/-- The name of a file as the system takes it. -/
def fileName (p : Path) : Literal :=
  plain (String.ofList p.toText)

/-- The outcome of an action that can fail on a file. -/
def attempt {α : Type} (action : IO α) : IO (Except FileError α) := do
  try
    return .ok (← action)
  catch e => return .error (fileError e)

/-- The error of an action that can fail on a file. -/
def failure? (action : IO Unit) : IO (Option FileError) := do
  match ← attempt action with
  | .ok () => return none
  | .error e => return some e

/-- The real file system. -/
def fileSystem : FileSystem IO where
  present p := do
    match ← attempt (IO.FS.realPath (fileName p)) with
    | .ok found => return .ok (← found.pathExists)
    | .error .nameTooLong => return .error .nameTooLong
    | .error _ => return .ok false
  makeDirectories p := failure? (IO.FS.createDirAll (fileName p))
  read p := attempt (IO.FS.readBinFile (fileName p))
  write p content := failure? (IO.FS.writeBinFile (fileName p) content)
  note n := IO.eprintln (visible n.message)

/-- The variables of the environment that give settings. -/
def environment : IO (List (String × String)) := do
  let names := Settings.names.flatMap fun name =>
    let spelled := plain (Settings.variablePrefix ++ name)
    [spelled.toUpper, spelled]
  let mut found : List (String × String) := []
  for name in names do
    if let some value ← IO.getEnv name then
      found := found ++ [(String.literal name, String.literal value)]
  return found

/-- What is said about a failure. -/
def failureMessage : Failure → String
  | .noInputFile => "there is no input file"
  | .input e => "cannot look for the input file: " ++ e.name
  | .outputDirectory e => "cannot make the output directory: " ++ e.name
  | .noOutputDirectory => "there is no output directory"
  | .impossibleOutput => "no file can be where the output is to go"
  | .encoding => "the input is not UTF-8"
  | .unencodable => "the output is not UTF-8"
  | .undumped => "the document cannot be dumped"
  | .noOutputName => "the input's name leaves no name for the output"
  | .longLiteral => "an integer literal is too long"
  | .longInteger => "an integer is too long"

/-- How the program is called. -/
def usage : String :=
  "usage: seqn [-h] --inputFile INPUTFILE [--outputFile OUTPUTFILE] [-v] [-V] inputdir outputdir"

/-- The version of the program. -/
def version : String := "seqn 1.0.0"

/-- Converts a file and gives the exit status. -/
def convert (s : Settings) (o : Options) : IO UInt32 := do
  match ← CommandLine.run fileSystem (fun _ => false) s o with
  | .finished => return 0
  | .stopped complaint =>
    IO.eprintln (visible complaint)
    return 1
  | .failed cause =>
    IO.eprintln (visible ("Error: " ++ failureMessage cause))
    return 1

/-- Runs the program with the words of its command line. -/
def runWith (words : List Literal) : IO UInt32 := do
  match Settings.ofEnvironment (← environment) with
  | .error issues =>
    IO.eprintln (visible (Issue.summary "AppSettings" issues))
    return 1
  | .ok s =>
    match CommandLine.read (words.map fun word => (String.literal word).toList) with
    | .convert o => convert s o
    | .help => IO.println (visible usage); return 0
    | .version => IO.println (visible version); return 0
    | .misuse => IO.eprintln (visible usage); return 2

end CommandSequence.Main

/-- Runs the program. -/
def main (words : List String) : IO UInt32 :=
  CommandSequence.Main.runWith words
