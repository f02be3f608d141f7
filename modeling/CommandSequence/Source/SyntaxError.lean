import CommandSequence.Source.Token
import CommandSequence.Text.Lines

/-!
# The wording of syntax errors

A syntax error is reported with what stands there, what was expected, the place, and the line around
it with a caret below the place.
-/

namespace CommandSequence.Source

namespace Offence

/-- What stands there, in words. -/
def message : Offence → String
  | .character c => "Unexpected character " ++ String.ofList (Shown.quote [c])
  | .token text => "Unexpected token " ++ String.ofList (Shown.quote text)
  | .endOfInput => "Unexpected end of input"

end Offence

namespace SyntaxError

/-- The characters of context on either side of the place. -/
def span : Nat := 40

/-- The width of a text whose tabs reach to the next multiple of eight columns. -/
def width (text : List Char) : Nat :=
  (text.foldl (fun (total, column) c =>
    if c == '\t' then
      let skip := 8 - column % 8
      (total + skip, column + skip)
    else if c == '\n' || c == '\r' then (total + 1, 0)
    else (total + 1, column + 1)) (0, 0)).1

/-- The line around the place, cut off at some distance, and a caret below the place. -/
def context (e : SyntaxError) (text : List Char) : List Char :=
  let start := e.position.offset - span
  let around := (text.take e.position.offset).drop start
  let before := (around.reverse.takeWhile (· != ('\n' : Char))).reverse
  let after := ((text.drop e.position.offset).take span).takeWhile (· != ('\n' : Char))
  before ++ after ++ ('\n' : Char) :: List.replicate (width before) (' ' : Char) ++
    [('^' : Char), '\n']

/-- What was expected, in the order of messages. -/
def expectation (e : SyntaxError) : String :=
  String.intercalate ", " ((Terminal.listed.filter e.expected.contains).map Terminal.shown)

/-- The whole report of an error in a text. -/
def message (e : SyntaxError) (text : List Char) : String :=
  let p := e.position
  "\n" ++ e.offence.message ++ " (expected one of: " ++ e.expectation ++ ")\nLine "
    ++ toString p.line ++ ", column " ++ toString p.column ++ ", position " ++ toString p.offset
    ++ "\nContext:\n" ++ String.ofList (e.context text) ++ " (line " ++ toString p.line ++ ")"

end SyntaxError

end CommandSequence.Source
