import CommandSequence.Proofs.Document.OfOutline
import CommandSequence.Proofs.Document.Unplaced
import CommandSequence.Proofs.Source.Leading
import CommandSequence.Proofs.Source.Refilled

/-!
# What stands between lines carries no meaning

Blank lines and lines of comment may be put at the beginning of a text and after any of its line
feeds, and its line feeds may be given carriage returns: the text describes the same document as
before, or none if it described none (`Document.ofText_refilled`). The two texts go on alike from
their next lines, in either direction, so they have the same lines.
-/

namespace CommandSequence.Document

open Source

variable {validate : Bool} {text text' : List Char} {d : Document}

/-- Texts that go on alike from their next lines describe the same. -/
theorem ofText_of_continues
    (h : Continues [] (nextLine (Lines.terminate text)) (nextLine (Lines.terminate text')))
    (htext : ofText validate text = .ok d) : ofText validate text' = .ok d := by
  have hfeed (text : List Char) : ('\n' : Char) ∈ Lines.terminate text :=
    List.mem_of_getLast? (getLast?_terminate text)
  obtain ⟨outline, hread, hdocument⟩ := ofText_eq_ok.1 htext
  obtain ⟨lines, hlines, heq⟩ := bind_eq_ok.1 hread
  obtain ⟨lines', hlines', hsame⟩ :=
    readLines_of_continues (hfeed text) (hfeed text') h lines hlines
  have hitems := congrArg Outline.ofLines hsame
  rw [Outline.ofLines_substance, Outline.ofLines_substance] at hitems
  cases heq
  refine ofText_eq_ok.2 ⟨_, bind_eq_ok.2 ⟨lines', hlines', rfl⟩, ?_⟩
  rw [← toOption_eq_some] at hdocument ⊢
  exact (ofOutline_congr hitems.symm).trans hdocument

/-- Further blank lines and comments, and carriage returns before line feeds, make no difference to
what a text describes, nor to whether it describes a document. -/
theorem ofText_refilled (h : Refilled text text') :
    ofText validate text = .ok d ↔ ofText validate text' = .ok d :=
  ⟨ofText_of_continues h.continues, ofText_of_continues h.continues.symm⟩

/-- A comment, a blank line within a value and a carriage return leave a text what it is. -/
theorem ofText_refilled_commented :
    let text := String.toList "@ID \"demo\"" ++ ('\n' : Char) ::
      (String.toList "@METADATA \"flags\" [" ++ ('\n' : Char) ::
      (String.toList "1]" ++ ('\n' : Char) :: (String.toList "C NOOP" ++ [('\n' : Char)])))
    let text' := String.toList "# head\n" ++
      (String.toList "@ID \"demo\"" ++ ('\r' : Char) :: '\n' ::
      (String.toList "@METADATA \"flags\" [" ++ ('\n' : Char) :: (String.toList " \t\n" ++
        (String.toList "1]" ++ ('\n' : Char) :: (String.toList "C NOOP" ++ [('\n' : Char)])))))
    Refilled text text' ∧ ∃ d, ofText true text = .ok d ∧ ofText true text' = .ok d := by
  intro text text'
  have hcomment : Filler (String.toList "# head\n") := by
    have h : IsIdle ([] ++ ('#' : Char) :: (String.toList " head" ++ [('\n' : Char)])) :=
      .comment (List.forall_mem_nil _) (List.all_iff_forall_prop.1 (by decide))
    exact .cons h .nil
  have hblank : Filler (String.toList " \t\n") := by
    have h : IsIdle ([(' ' : Char), '\t'] ++ [('\n' : Char)]) :=
      .blank (List.all_iff_forall_prop.1 (by decide))
    exact .cons h .nil
  have hinline : ∀ line ∈ [("@ID \"demo\"" : String), "@METADATA \"flags\" [", "1]",
      "C NOOP"], ∀ c ∈ line.toList, c ≠ '\n' ∧ c ≠ '\r' := by
    intro line hline
    refine List.all_iff_forall_prop.1 ?_
    revert line hline
    exact List.all_iff_forall_prop.1 (by decide)
  have hstep := RefilledFrom.append_line (hinline "C NOOP" (by decide)) (.feed .nil .nil)
  have hclose := RefilledFrom.append_line (hinline "1]" (by decide)) (.feed .nil hstep)
  have hopen := RefilledFrom.append_line (hinline "@METADATA \"flags\" [" (by decide))
    (.feed hblank hclose)
  have hid := RefilledFrom.append_line (hinline "@ID \"demo\"" (by decide)) (.feedReturn .nil hopen)
  have h : Refilled text text' := .mk hcomment hid
  have hread : (ofText true text).toOption.isSome = true := by decide +kernel
  obtain ⟨d, hd⟩ := Option.isSome_iff_exists.1 hread
  have hread := toOption_eq_some.1 hd
  exact ⟨h, d, hread, (ofText_refilled h).1 hread⟩

end CommandSequence.Document
