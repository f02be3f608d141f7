import CommandSequence.Issue
import CommandSequence.Json.Shown

/-!
# Shapes

A shape says how a JSON value is read as data of a type: it gives the data, or every issue found in
the value. The issues of a record come in the order of its fields, those of an array in the order of
its items, and each issue has the path that leads to it.
-/

namespace CommandSequence.Json

/-- Data, or all the issues that stand against it. -/
def Checked (α : Type) : Type := Except (List Issue) α

namespace Checked

/-- Data without issues. -/
def pass {α : Type} (a : α) : Checked α := .ok a

/-- A single issue at the place itself. -/
def fail {α : Type} (cause : IssueCause) : Checked α := .error [⟨[], cause⟩]

/-- A function and its argument, with the issues of both. -/
def apply {α β : Type} (f : Checked (α → β)) (a : Checked α) : Checked β :=
  match f, a with
  | .ok f, .ok a => .ok (f a)
  | .ok _, .error issues => .error issues
  | .error issues, .ok _ => .error issues
  | .error issues, .error more => .error (issues ++ more)

instance : Applicative Checked where
  pure := pass
  seq f a := apply f (a ())

/-- The data found, their issues seen from the place that a step leads from. -/
def under {α : Type} (step : PathStep) : Checked α → Checked α
  | .ok a => .ok a
  | .error list => .error (list.map (Issue.under step))

/-- The data after a further test. -/
def refine {α β : Type} (test : α → Checked β) : Checked α → Checked β
  | .ok a => test a
  | .error list => .error list

end Checked

/-- How a value is read as data of a type. -/
abbrev Shape (α : Type) : Type := Value → Checked α

/-- The members of an object. -/
abbrev Members : Type := List (String × Value)

namespace Shape

/-! ## Single values -/

/-- A string. -/
def string : Shape String
  | .string s => .pass s
  | _ => .fail .notString

/-- A string that is not empty. -/
def nonEmptyString : Shape String := fun v =>
  (string v).refine fun s => if s.isEmpty then .fail .emptyString else .pass s

/-- A string that a test accepts. -/
def matching (pattern : String) (accepts : List Char → Bool) : Shape String := fun v =>
  (string v).refine fun s => if accepts s.toList then .pass s else .fail (.patternMismatch pattern)

/-- One of some words. -/
def choice {α : Type} (words : List String) (ofWord? : String → Option α) : Shape α
  | .string s =>
    match ofWord? s with
    | some a => .pass a
    | none => .fail (.notChoice words)
  | _ => .fail (.notChoice words)

/-- A truth value. -/
def boolean : Shape Bool
  | .boolean b => .pass b
  | _ => .fail .notBoolean

/-- What is wrong with a value that is no number, reported once for integers and once for
floating-point numbers. -/
def numberIssues : List Issue :=
  [⟨[.field "int"], .notInteger⟩, ⟨[.field "float"], .notFloat⟩]

/-- A number. -/
def number : Shape Number
  | .number n => .pass n
  | _ => .error numberIssues

/-- A value, or null for none. -/
def nullable {α : Type} (shape : Shape α) : Shape (Option α)
  | .null => .pass none
  | v => some <$> shape v

/-! ## Arrays -/

/-- The items of an array that have a shape, and the issues of the others. The first has the given
index. -/
def collect {α : Type} (shape : Shape α) (index : Nat) : List Value → List α × List Issue
  | [] => ([], [])
  | v :: rest =>
    let (items, issues) := collect shape (index + 1) rest
    match (shape v).under (.index index) with
    | .ok a => (a :: items, issues)
    | .error found => (items, found ++ issues)

/-- An array of items of a shape. -/
def array {α : Type} (shape : Shape α) : Shape (List α)
  | .array values =>
    match collect shape 0 values with
    | (items, []) => .pass items
    | (_, issues) => .error issues
  | _ => .fail .notArray

/-- An array of at least one item of a shape. Without any good item it counts as empty. -/
def filledArray {α : Type} (shape : Shape α) : Shape (List α)
  | .array values =>
    match collect shape 0 values with
    | ([], issues) => .error (issues ++ [⟨[], .emptyArray⟩])
    | (items, []) => .pass items
    | (_, issues) => .error issues
  | _ => .fail .notArray

/-! ## Records -/

/-- A field that must be there. -/
def required {α : Type} (members : Members) (name : String) (shape : Shape α) : Checked α :=
  match members.lookup name with
  | some v => (shape v).under (.field name)
  | none => .error [⟨[.field name], .missing⟩]

/-- A field that has a default. -/
def withDefault {α : Type} (members : Members) (name : String) (default : α) (shape : Shape α) :
    Checked α :=
  match members.lookup name with
  | some v => (shape v).under (.field name)
  | none => .pass default

/-- A field that may be missing or null. -/
def optional {α : Type} (members : Members) (name : String) (shape : Shape α) :
    Checked (Option α) :=
  withDefault members name none (nullable shape)

/-- A group that may be missing or null, but not empty. -/
def group {α : Type} (members : Members) (name : String) (shape : Shape α) : Checked (List α) :=
  (optional members name (filledArray shape)).refine fun items => .pass (items.getD [])

/-- The issues of the members that a record does not know. -/
def unexpected (known : List String) (members : Members) : Checked Unit :=
  match members.filter fun (name, _) => !known.contains name with
  | [] => .pass ()
  | extra => .error (extra.map fun (name, _) => ⟨[.field name], .unexpected⟩)

/-- A record of known fields. -/
def record {α : Type} (known : List String) (read : Members → Checked α) : Shape α
  | .object members => (fun a _ => a) <$> read members <*> unexpected known members
  | _ => .fail .notRecord

/-! ## Variants -/

/-- The name of the member that tells which variant an object is. -/
def tagName : String := "type"

/-- One of several kinds of record, told apart by their tag. -/
def variants {α : Type} (list : List (String × Shape α)) : Shape α
  | .object members =>
    match members.lookup tagName with
    | none => .fail .noVariant
    | some tag =>
      let unknown : Checked α :=
        .fail (.unknownVariant (String.ofList tag.shownBare) (list.map (·.1)))
      match tag with
      | .string name =>
        match list.lookup name with
        | some shape => (shape (.object members)).under (.field name)
        | none => unknown
      | _ => unknown
  | _ => .fail .notDictionary

end Shape

end CommandSequence.Json
