import CommandSequence.Text.Cut

/-!
# Paths

A path is a list of names, with slashes in front if it starts at the root of all files. Names that
are empty or a single point say nothing and are dropped when a path is read; two points are kept,
since what they lead to depends on the files there are.
-/

namespace CommandSequence

/-- A path: the slashes it starts with, and the names on the way. -/
structure Path where
  root : List Char
  names : List (List Char)
deriving DecidableEq

namespace Path

/-- The name of the directory above. -/
def up : List Char := ['.', '.']

/-- The slashes that a path starts with: just two are kept, and any other number counts as one. -/
def rootOf (text : List Char) : List Char :=
  match (text.takeWhile fun c : Char => c == '/').length with
  | 0 => []
  | 2 => ['/', '/']
  | _ => ['/']

/-- The path that a text spells. -/
def ofText (text : List Char) : Path :=
  ⟨rootOf text, (Cut.split '/' text).filter fun name => !name.isEmpty && name != [('.' : Char)]⟩

/-- The text of a path. -/
def toText (p : Path) : List Char :=
  if p.root.isEmpty && p.names.isEmpty then ['.']
  else p.root ++ List.intercalate [('/' : Char)] p.names

/-- A path as seen from another one. A path from the root stays itself. -/
def join (base p : Path) : Path :=
  if p.root.isEmpty then ⟨base.root, base.names ++ p.names⟩ else p

/-- The last name of a path. -/
def name (p : Path) : List Char :=
  p.names.getLast?.getD []

/-- The size of a text in bytes of UTF-8. -/
def size (text : List Char) : Nat :=
  text.foldl (fun n c => n + c.utf8Size) 0

/-- Whether something can be at a path: nothing has a name with the character NUL in it. -/
def isPossible (p : Path) : Bool :=
  p.names.all fun name => !name.contains '\x00'

/-- The path without its last name. -/
def parent (p : Path) : Path :=
  { p with names := p.names.dropLast }

/-! ## Suffixes -/

/-- A name without its suffix, and the suffix: the last point and what follows it. A point at the
beginning or end of a name begins no suffix. -/
def splitSuffix (name : List Char) : List Char × List Char :=
  let after := (name.reverse.takeWhile fun c : Char => c != '.').reverse
  let before := (name.reverse.dropWhile fun c : Char => c != '.').drop 1
  if after.isEmpty || before.isEmpty then (name, []) else (before.reverse, '.' :: after)

/-- A name without its suffix. -/
def stem (name : List Char) : List Char :=
  (splitSuffix name).1

/-- The suffix of a name. -/
def suffix (name : List Char) : List Char :=
  (splitSuffix name).2

end Path

end CommandSequence
