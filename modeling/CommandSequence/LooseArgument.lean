import CommandSequence.Document.WriteError
import CommandSequence.Document.ToText
import CommandSequence.Json.Shown

/-!
# Arguments that have not been checked

Arguments put together without a check can hold any value in any place. They are written as far as
they make sense: a repetition leaves out what is no argument set, and a set what is no single
argument, with a warning for each. What cannot be left out is an error.
-/

namespace CommandSequence

/-- The kinds of arguments. -/
inductive ArgumentKind where
  | string
  | number
  | boolean
  | symbol
  | hex
  | repetition
deriving DecidableEq, Repr

/-- Any value in the place of an argument or inside one. -/
inductive LooseArgument where
  | null
  | boolean (b : Bool)
  | number (n : Number)
  | text (s : String)
  | array (items : List LooseArgument)
  | record (members : List (String × Json.Value))
  | argument (kind : ArgumentKind) (value : LooseArgument)

namespace ArgumentKind

/-- Every kind. -/
def all : List ArgumentKind := [.string, .number, .boolean, .symbol, .hex, .repetition]

/-- The name of a kind. -/
def name : ArgumentKind → String
  | .string => "string"
  | .number => "number"
  | .boolean => "boolean"
  | .symbol => "symbol"
  | .hex => "hex"
  | .repetition => "repeat"

/-- The kind of a name. -/
def ofName? (s : String) : Option ArgumentKind :=
  all.find? (·.name == s)

/-- The name of an argument's type in messages. -/
def typeName : ArgumentKind → String
  | .string => "StringArgument"
  | .number => "NumberArgument"
  | .boolean => "BooleanArgument"
  | .symbol => "SymbolArgument"
  | .hex => "HexArgument"
  | .repetition => "RepeatArgument"

end ArgumentKind

namespace LooseArgument

instance : Inhabited LooseArgument := ⟨.null⟩

/-! ## How a message shows a value -/

mutual

/-- A value as a message shows it. Every array is shown as a tuple, in parentheses: a list, which
the program shows in brackets, is not told apart from one. -/
def shown : LooseArgument → List Char
  | .null => String.toList "None"
  | .boolean b => Json.Value.shownBoolean b
  | .number n => n.shown
  | .text s => Shown.quote s.toList
  | .array [] => ['(', ')']
  | .array [item] => ('(' : Char) :: (item.shown ++ [(',' : Char), ')'])
  | .array (item :: rest) => ('(' : Char) :: (item.shown ++ shownRest rest ++ [(')' : Char)])
  | .record members => (Json.Value.object members).shown
  | .argument kind value =>
    kind.typeName.toList ++ String.toList "(type=" ++ Shown.quote kind.name.toList ++
      String.toList ", value=" ++ value.shown ++ String.toList ", name=None)"

/-- Further items of an array, each after a comma. -/
def shownRest : List LooseArgument → List Char
  | [] => []
  | item :: rest => (',' : Char) :: (' ' : Char) :: item.shown ++ shownRest rest

end

mutual

/-- Whether a message can show a value: its integers must be short enough to be written. -/
def showable : LooseArgument → Bool
  | .number (.int n) => Decimal.writable n
  | .array items => showableAll items
  | .record members => (Json.Value.object members).showable
  | .argument _ value => value.showable
  | _ => true

@[inherit_doc showable]
def showableAll : List LooseArgument → Bool
  | [] => true
  | item :: rest => item.showable && showableAll rest

end

/-- A value as it is written in the place of a number: a text stands without quotes. -/
def shownBare : LooseArgument → List Char
  | .text s => s.toList
  | .argument kind value =>
    String.toList "type=" ++ Shown.quote kind.name.toList ++ String.toList " value=" ++ value.shown
      ++ String.toList " name=None"
  | other => other.shown

/-! ## Values in the places of single arguments -/

/-- Whether a value counts as true: null, false, zero and whatever is empty do not. -/
def truthy : LooseArgument → Bool
  | .null => false
  | .boolean b => b
  | .number n => !n.isZero
  | .text s => !s.isEmpty
  | .array items => !items.isEmpty
  | .record members => !members.isEmpty
  | .argument .. => true

mutual

/-- The JSON value that a value is, if it holds no argument. -/
def toJson : LooseArgument → Except WriteError Json.Value
  | .null => .ok .null
  | .boolean b => .ok (.boolean b)
  | .number (.int n) =>
    if Decimal.writable n then .ok (.number (.int n)) else .error .integerTooLong
  | .number (.float x) => .ok (.number (.float x))
  | .text s => .ok (.string s)
  | .array items => (toJsonAll items).map .array
  | .record members =>
    let object := Json.Value.object members
    if object.showable then .ok object else .error .integerTooLong
  | .argument .. => .error .notText

@[inherit_doc toJson]
def toJsonAll : List LooseArgument → Except WriteError (List Json.Value)
  | [] => .ok []
  | item :: rest => do
    let head ← item.toJson
    return head :: (← toJsonAll rest)

end

/-- A value in the place of a number. -/
def numeral : LooseArgument → Except WriteError (List Char)
  | .boolean b => .error (.notNumber b)
  | .number n => n.literal
  | other => if other.showable then .ok other.shownBare else .error .integerTooLong

/-- A piece of text, or the place of a value that is none. -/
abbrev Piece := Option (List Char)

/-- A single argument. -/
def writeSingle (kind : ArgumentKind) (value : LooseArgument) : Except WriteError Piece :=
  match kind with
  | .string => value.toJson.map fun v => some (v.write none)
  | .number => value.numeral.map some
  | .boolean => .ok (some (ToText.boolean value.truthy))
  | _ =>
    match value with
    | .text s => .ok (some s.toList)
    | _ => .ok none

/-- Pieces joined by blanks; all of them must be text. -/
def joinPieces (pieces : List Piece) : Except WriteError (List Char) :=
  match pieces.mapM id with
  | some texts => .ok (ToText.joined [' '] texts)
  | none => .error .notText

/-! ## Repetitions -/

/-- What is left out of a repetition. -/
inductive Warning where
  /-- A member of a repetition is no argument set. -/
  | notSet (value : LooseArgument)
  /-- An item of an argument set is no single argument. -/
  | notSingle (value : LooseArgument)

/-- What a warning says, and the value it is about. -/
def Warning.subject : Warning → String
  | .notSet _ => "Repeat argument set is not an array"
  | .notSingle _ => "Repeat argument set holds a non-base argument"

/-- The value that a warning is about. -/
def Warning.value : Warning → LooseArgument
  | .notSet v | .notSingle v => v

/-- The wording of a warning. -/
def Warning.message (w : Warning) : String :=
  w.subject ++ ", skipping: " ++ String.ofList w.value.shown

/-- A single argument with its value. -/
def single? : LooseArgument → Option (ArgumentKind × LooseArgument)
  | .argument .repetition _ => none
  | .argument kind value => some (kind, value)
  | _ => none

/-- An item of an argument set: a single argument, or a warning. -/
def sorted (item : LooseArgument) : Warning ⊕ (ArgumentKind × LooseArgument) :=
  match item.single? with
  | some found => .inr found
  | none => .inl (.notSingle item)

/-- The items of the sets of a repetition, in order, with a warning in the place of each thing that
is left out. -/
def repeated : List LooseArgument → List (Warning ⊕ (ArgumentKind × LooseArgument))
  | [] => []
  | .array items :: rest => items.map sorted ++ repeated rest
  | other :: rest => .inl (.notSet other) :: repeated rest

/-- What is written with warnings: the warnings up to the end or the first error, and the
outcome. -/
structure Written (α : Type) where
  warnings : List Warning
  result : Except WriteError α

/-- The items of a repetition, written one after the other up to the first error. A warning about a
value that cannot be shown is an error as well. -/
def writeItems : List (Warning ⊕ (ArgumentKind × LooseArgument)) → Written (List Piece)
  | [] => ⟨[], .ok []⟩
  | .inl warning :: rest =>
    if warning.value.showable then
      let tail := writeItems rest
      ⟨warning :: tail.warnings, tail.result⟩
    else ⟨[], .error .integerTooLong⟩
  | .inr (kind, value) :: rest =>
    match writeSingle kind value with
    | .error e => ⟨[], .error e⟩
    | .ok piece =>
      let tail := writeItems rest
      ⟨tail.warnings, tail.result.map (piece :: ·)⟩

/-- A group in brackets. -/
def bracketed (text : List Char) : List Char :=
  ('[' : Char) :: (text ++ [(']' : Char)])

/-- An argument. -/
def write : LooseArgument → Written Piece
  | .argument .repetition (.array sets) =>
    let items := writeItems (repeated sets)
    ⟨items.warnings, (items.result.bind joinPieces).map (some ∘ bracketed)⟩
  | .argument .repetition other =>
    ⟨[], .error (if other.showable then .notArray other.shown else .integerTooLong)⟩
  | .argument kind value => ⟨[], writeSingle kind value⟩
  | other => ⟨[], .error (if other.showable then .notArgument else .integerTooLong)⟩

/-- Arguments, written one after the other up to the first error. -/
def writePieces : List LooseArgument → Written (List Piece)
  | [] => ⟨[], .ok []⟩
  | item :: rest =>
    let head := item.write
    match head.result with
    | .error e => ⟨head.warnings, .error e⟩
    | .ok piece =>
      let tail := writePieces rest
      ⟨head.warnings ++ tail.warnings, tail.result.map (piece :: ·)⟩

/-- Arguments, each after a blank. -/
def writeAll (items : List LooseArgument) : Written (List Char) :=
  if items.isEmpty then ⟨[], .ok []⟩
  else
    let pieces := writePieces items
    ⟨pieces.warnings, (pieces.result.bind joinPieces).map (' ' :: ·)⟩

end LooseArgument

end CommandSequence
