import CommandSequence.Document.OfOutline
import CommandSequence.Proofs.Document.Valid
import CommandSequence.Proofs.Source.Cursor

/-!
# Time tags of documents

A tag can be written and read back if it has the form of its terminal (`Terminal.isTagBody`) and,
where tags are validated, satisfies one of the grammars of its letter (`Accepted`).
`Document.Tagged` says of every tag in the text of a document that it has some property; a ground
epoch beside a time is not in the text.
-/

namespace CommandSequence

open Source (Terminal Token Begins)
open OfOutline (nonEmpty grammars)

/-- A tag of a terminal satisfies a grammar of its letter, unless it is empty. -/
def TagAccepted (kind : Terminal) (tag : List Char) : Prop :=
  tag ≠ [] → ∀ letter, kind.tagLetter? = some letter →
    (grammars letter).any (fun grammar => grammar.accepts tag) = true

/-- A tag of a terminal is read back: it has the form of the terminal, and satisfies a grammar if it
is validated. -/
def TagReadable (validate : Bool) (kind : Terminal) (tag : List Char) : Prop :=
  kind.isTagBody tag = true ∧ (validate = true → TagAccepted kind tag)

namespace Time

/-- The terminal that a time is written as. -/
def terminal : Time → Terminal
  | .absolute _ => .absoluteTime
  | .commandComplete => .commandComplete
  | .commandRelative _ => .commandRelative
  | .epochRelative _ => .epochRelative

/-- The tag as it stands after the letter. -/
def body (t : Time) : List Char :=
  (t.tag?.getD "").toList

/-- The tag has a property. -/
def Tagged (p : Terminal → List Char → Prop) (t : Time) : Prop :=
  p t.terminal t.body

end Time

namespace GroundEpoch

/-- The offset as it stands after the letter. -/
def body (g : GroundEpoch) : List Char :=
  (g.delta.getD "").toList

/-- The offset has a property. -/
def Tagged (p : Terminal → List Char → Prop) (g : GroundEpoch) : Prop :=
  p .groundEpoch g.body

end GroundEpoch

/-- Every tag in the text of a request has a property. -/
structure Request.Tagged (p : Terminal → List Char → Prop) (r : Request) : Prop where
  time : ∀ t, r.time = some t → t.Tagged p
  groundEpoch : r.time = none → ∀ g, r.groundEpoch = some g → g.Tagged p
  steps : ∀ s ∈ r.steps, s.time.Tagged p

/-- Every tag in the text of a document has a property. -/
structure Document.Tagged (p : Terminal → List Char → Prop) (d : Document) : Prop where
  steps : ∀ s ∈ d.steps, s.time.Tagged p
  requests : ∀ r ∈ d.requests, r.Tagged p

/-! ## Reading a tag back -/

/-- A text that is not empty stands for itself. -/
theorem OfOutline.nonEmpty_toList {s : Option String} (h : s ≠ some ("" : String)) :
    nonEmpty (String.ofList (s.getD "").toList) = s := by
  rw [String.ofList_toList]
  cases s with
  | none => rfl
  | some s =>
    have hs : s.isEmpty = false := by
      rw [Bool.eq_false_iff]
      intro hempty
      exact h (congrArg some (String.isEmpty_iff.1 hempty))
    simp [nonEmpty, hs]

theorem OfOutline.tag_ok {validate : Bool} {token : Token} {kind : Terminal} {letter : Char}
    {body : List Char} (htoken : token.Is kind (letter :: body))
    (hletter : kind.tagLetter? = some letter) (h : TagReadable validate kind body) :
    tag validate token = .ok (nonEmpty (String.ofList body)) := by
  have hpass : (validate && !body.isEmpty && !(grammars letter).any (·.accepts body)) = false := by
    cases validate with
    | false => rfl
    | true =>
      cases body with
      | nil => rfl
      | cons c body => simp [h.2 rfl (List.cons_ne_nil c body) letter hletter]
  rw [tag]
  simp only [htoken.text, hpass]
  rfl

namespace Time

variable {t : Time} {validate : Bool}

/-- A time is written as the letter of its terminal and its tag. -/
theorem write_eq (t : Time) :
    ∃ letter, t.terminal.tagLetter? = some letter ∧ t.write = letter :: t.body := by
  cases t
  all_goals exact ⟨_, rfl, rfl⟩

/-- A written time is found again before a blank. -/
theorem begins (h : t.Tagged (TagReadable validate)) (rest : List Char) :
    Begins (t.write ++ (' ' : Char) :: rest) t.terminal t.write (' ' :: rest) := by
  obtain ⟨letter, hletter, hwrite⟩ := t.write_eq
  rw [hwrite, List.cons_append]
  exact Begins.tag hletter h.1 rfl

/-- The token of a time gives the time back. -/
theorem ofOutline_ok {token : Token} (hvalid : t.Valid) (h : t.Tagged (TagReadable validate))
    (htoken : token.Is t.terminal t.write) : OfOutline.time validate token = .ok t := by
  obtain ⟨letter, hletter, hwrite⟩ := t.write_eq
  rw [hwrite] at htoken
  have htag := OfOutline.tag_ok htoken hletter h
  rw [body, OfOutline.nonEmpty_toList hvalid] at htag
  cases t
  case commandComplete => simp only [OfOutline.time, htoken.kind, terminal]
  all_goals simp only [OfOutline.time, htoken.kind, terminal, htag]; rfl

end Time

/-- The token of a ground epoch gives its offset back. -/
theorem GroundEpoch.ofOutline_ok {g : GroundEpoch} {validate : Bool} {token : Token}
    (hvalid : g.Valid) (h : g.Tagged (TagReadable validate))
    (htoken : token.Is .groundEpoch ('G' :: g.body)) :
    OfOutline.tag validate token = .ok g.delta := by
  rw [OfOutline.tag_ok htoken rfl h, body, OfOutline.nonEmpty_toList hvalid.delta]

end CommandSequence
