import CommandSequence.Document.OfOutline
import CommandSequence.Source.SyntaxError

/-!
# Documents from sequence text

A text is read into its outline, and the outline into a document. Either step can fail.
-/

namespace CommandSequence

/-- Why a text gives no document: it departs from the grammar, or it describes none. -/
inductive TextError where
  | grammar (e : Source.SyntaxError)
  | fault (f : Fault)
deriving DecidableEq

namespace Document

/-- The document that a text describes. Time tags are checked against the tag grammars if `validate`
is set. -/
def ofText (validate : Bool) (text : List Char) : Except TextError Document :=
  match Source.Outline.read text with
  | .error e => .error (.grammar e)
  | .ok outline =>
    match ofOutline validate outline with
    | .error f => .error (.fault f)
    | .ok d => .ok d

end Document

end CommandSequence
