import CommandSequence.Files.Path
import CommandSequence.Text.Shown

/-!
# File trees

A file tree holds directories and files with their contents, at locations seen from a working
directory. A path leads to a location if every name but the last leads through a directory, and
neither a name nor the path is too long. The operations are those that a conversion needs: to ask
whether something is there, to read, to write, and to make a directory together with those above it.
None of them changes a file except writing, and that only the one it is given.
-/

namespace CommandSequence

/-- Why a file or directory cannot be had. -/
inductive FileError where
  | notFound
  | exists
  | notDirectory
  | isDirectory
  | nameTooLong
deriving DecidableEq, Repr

namespace FileError

/-- The number of an error. -/
def code : FileError → Nat
  | .notFound => 2
  | .exists => 17
  | .notDirectory => 20
  | .isDirectory => 21
  | .nameTooLong => 36

/-- The name of an error. -/
def name : FileError → String
  | .notFound => "No such file or directory"
  | .exists => "File exists"
  | .notDirectory => "Not a directory"
  | .isDirectory => "Is a directory"
  | .nameTooLong => "File name too long"

/-- The wording of an error at a path. -/
def message (p : Path) (e : FileError) : String :=
  "[Errno " ++ toString e.code ++ "] " ++ e.name ++ ": " ++ String.ofList (Shown.quote p.toText)

end FileError

/-- A location: the names that lead to it from the working directory. Names of the directory above
stand in front only, and a slash in front stands for the root. -/
abbrev Location := List (List Char)

namespace Location

/-- The name of the root. -/
def root : List Char := ['/']

/-- Whether a location is the working directory, one above it, or the root: these always exist. -/
def isOuter (l : Location) : Bool :=
  l == [root] || l.all (· == Path.up)

/-- The location of the directory above. -/
def above (l : Location) : Location :=
  if l == [root] then l
  else if l.all (· == Path.up) then l ++ [Path.up]
  else l.dropLast

end Location

/-- What is at a location. -/
inductive FileNode where
  | directory
  | file (content : ByteArray)

/-- Directories and files. -/
structure FileTree where
  directories : List Location
  files : List (Location × ByteArray)

namespace FileTree

/-- What is at a location. -/
def node? (t : FileTree) (l : Location) : Option FileNode :=
  if l.isOuter || t.directories.contains l then some .directory
  else (t.files.lookup l).map .file

/-- The size of the longest name, in bytes. -/
def nameLimit : Nat := 255

/-- The size of the longest path, in bytes. -/
def pathLimit : Nat := 4095

/-- The location that names lead to. A name is looked up only where it is in a directory. -/
def walk (t : FileTree) (l : Location) : List (List Char) → Except FileError Location
  | [] => .ok l
  | name :: rest =>
    match t.node? l with
    | none => .error .notFound
    | some (.file _) => .error .notDirectory
    | some .directory =>
      if nameLimit < Path.size name then .error .nameTooLong
      else walk t (if name = Path.up then l.above else l ++ [name]) rest

/-- The location that a path leads to. -/
def locate (t : FileTree) (p : Path) : Except FileError Location :=
  if pathLimit < Path.size p.toText then .error .nameTooLong
  else t.walk (if p.root.isEmpty then [] else [Location.root]) p.names

/-- What a path leads to. -/
def at? (t : FileTree) (p : Path) : Option FileNode :=
  match t.locate p with
  | .ok l => t.node? l
  | .error _ => none

/-- Whether a path leads to anything. A path that is too long leaves that open. -/
def present (t : FileTree) (p : Path) : Except FileError Bool :=
  match t.locate p with
  | .ok l => .ok (t.node? l).isSome
  | .error .nameTooLong => .error .nameTooLong
  | .error _ => .ok false

/-- Whether a path leads to a directory. -/
def isDirectory (t : FileTree) (p : Path) : Bool :=
  match t.at? p with
  | some .directory => true
  | _ => false

/-- The content of the file that a path leads to. -/
def read (t : FileTree) (p : Path) : Except FileError ByteArray := do
  match t.node? (← t.locate p) with
  | none => throw .notFound
  | some .directory => throw .isDirectory
  | some (.file content) => return content

/-- The files after writing one. -/
def putFile (l : Location) (content : ByteArray) :
    List (Location × ByteArray) → List (Location × ByteArray)
  | [] => [(l, content)]
  | (other, old) :: rest =>
    if other = l then (l, content) :: rest else (other, old) :: putFile l content rest

/-- The tree after writing a file, whose directory must exist. -/
def write (t : FileTree) (p : Path) (content : ByteArray) : Except FileError FileTree := do
  let l ← t.locate p
  match t.node? l with
  | some .directory => throw .isDirectory
  | _ => return { t with files := putFile l content t.files }

/-- The tree after making a directory in one that exists. -/
def makeDirectory (t : FileTree) (p : Path) : Except FileError FileTree := do
  let l ← t.locate p
  match t.node? l with
  | some _ => throw .exists
  | none => return { t with directories := l :: t.directories }

/-- The tree after making a directory unless it is there, and what keeps it from being made. -/
def ensureDirectory (t : FileTree) (p : Path) : FileTree × Option FileError :=
  match t.makeDirectory p with
  | .ok made => (made, none)
  | .error e => (t, if t.isDirectory p then none else some e)

/-- The tree after making a directory, and those above it, unless they are there. The count bounds
the directories that are made above. -/
def ensureDirectories : (above : Nat) → FileTree → Path → FileTree × Option FileError
  | 0, t, p => t.ensureDirectory p
  | above + 1, t, p =>
    match t.ensureDirectory p with
    | (made, some .notFound) =>
      match ensureDirectories above made p.parent with
      | (made, none) => made.ensureDirectory p
      | failed => failed
    | outcome => outcome

/-- The tree after making a directory, and those above it, unless they are there. -/
def makeDirectories (t : FileTree) (p : Path) : FileTree × Option FileError :=
  ensureDirectories p.names.length t p

end FileTree

end CommandSequence
