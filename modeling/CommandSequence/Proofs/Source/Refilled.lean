import CommandSequence.Proofs.Source.Respaced
import CommandSequence.Text.Lines

/-!
# Refilled texts

A text is refilled (`Refilled`) by putting blank lines and lines of comment at its beginning and
after any of its line feeds, and carriage returns before its line feeds. A refilled text is
respaced, and also if it goes on with a tail (`RefilledFrom.respaced`), which is how a text is
compared with a longer one of which it is the beginning. Refilled texts go on alike from their next
lines (`Refilled.continues`).
-/

namespace CommandSequence.Source

/-- After any line feed of the first text the second has further lines without meaning, and a line
feed may have been given a carriage return. `returned` tells whether a carriage return stands
before the texts. -/
inductive RefilledFrom : (returned : Bool) → List Char → List Char → Prop where
  | nil {returned : Bool} : RefilledFrom returned [] []
  | char {returned : Bool} {c : Char} {text text' : List Char} (hc : c ≠ '\n')
    (h : RefilledFrom (c == '\r') text text') : RefilledFrom returned (c :: text) (c :: text')
  | feed {returned : Bool} {filler text text' : List Char} (hfiller : Filler filler)
    (h : RefilledFrom false text text') :
    RefilledFrom returned ('\n' :: text) ('\n' :: (filler ++ text'))
  | feedReturn {filler text text' : List Char} (hfiller : Filler filler)
    (h : RefilledFrom false text text') :
    RefilledFrom false ('\n' :: text) ('\r' :: '\n' :: (filler ++ text'))

/-- The second text is the first with further lines without meaning, at its beginning and after its
line feeds, and with carriage returns before some of its line feeds. -/
inductive Refilled : List Char → List Char → Prop where
  | mk {filler text text' : List Char} (hfiller : Filler filler)
    (h : RefilledFrom false text text') : Refilled text (filler ++ text')

variable {returned : Bool} {tail text text' : List Char}

namespace Respaced

theorem symm (h : Respaced [] text text') : Respaced [] text' text := by
  induction h with
  | char hc hreturn _ ih => exact char hc (fun h => (hreturn h).symm) ih
  | line hending hending' hfiller hfiller' _ ih => exact line hending' hending hfiller' hfiller ih
  | last hending hending' hfiller hfiller' =>
    have hlast : Respaced [] _ _ := last hending' hending hfiller' hfiller
    simpa using hlast

end Respaced

theorem Continues.symm (h : Continues [] text text') : Continues [] text' text := by
  rcases h with h | ⟨rfl, rfl⟩
  · exact .inl h.symm
  · exact .inr ⟨rfl, rfl⟩

theorem Filler.getLast?_append_getD {filler : List Char} (h : Filler filler) (text : List Char) :
    (filler ++ text).getLast?.getD '\n' = text.getLast?.getD '\n' := by
  induction h with
  | nil => rfl
  | cons hline _ ih =>
    have hlast {line : List Char} (h : IsIdle line) : line.getLast? = some ('\n' : Char) := by
      cases h <;> simp [List.getLast?_append, List.getLast?_cons]
    rw [List.append_assoc, List.getLast?_append, hlast hline, ← ih]
    cases (_ ++ text).getLast? <;> rfl

namespace RefilledFrom

/-- No carriage return is given where one stands already. -/
theorem head?_eq (h : RefilledFrom true text text') : text'.head? = text.head? := by
  cases h <;> rfl

/-- A line end and what follows it. -/
theorem respaced_append {ending ending' filler : List Char} (hending : IsBreak ending)
    (hending' : IsBreak ending') (hfiller : Filler filler) (h : RefilledFrom returned text text')
    (hrest : text ≠ [] → Respaced tail text (text' ++ tail)) :
    Respaced tail (ending ++ text) (ending' ++ ((filler ++ text') ++ tail)) := by
  rw [List.append_assoc]
  by_cases htext : text = []
  · subst htext
    cases h
    exact .last hending hending' .nil hfiller
  · exact .line hending hending' .nil hfiller (hrest htext)

/-- If the first text ends in a line feed, the second goes on with a tail, also after a carriage
return that stands before both. -/
theorem respaced (tail : List Char) (h : RefilledFrom returned text text')
    (hlast : text.getLast? = some ('\n' : Char)) : Respaced tail text (text' ++ tail) ∧
      (returned = true → text.head? = some ('\n' : Char) →
        Respaced tail ('\r' :: text) ('\r' :: (text' ++ tail))) := by
  induction h with
  | nil => cases hlast
  | @char returned c text text' hc h ih =>
    have hfilled : text ≠ [] := by
      rintro rfl
      exact hc (Option.some.inj hlast)
    rw [List.getLast?_cons_of_ne_nil hfilled] at hlast
    refine ⟨?_, fun _ hhead => absurd (Option.some.inj hhead) hc⟩
    by_cases hreturn : c = '\r' ∧ text.head? = some ('\n' : Char)
    · obtain ⟨rfl, hhead⟩ := hreturn
      exact (ih hlast).2 rfl hhead
    · refine .char hc ?_ (ih hlast).1
      rintro rfl
      have hhead : text.head? ≠ some ('\n' : Char) := fun hhead => hreturn ⟨rfl, hhead⟩
      have hsecond : (text' ++ tail).head? = text.head? := by
        obtain ⟨d, more, rfl⟩ := List.exists_cons_of_ne_nil hfilled
        obtain ⟨more', rfl⟩ := List.head?_eq_some_iff.1 h.head?_eq
        rfl
      exact ⟨hhead, hsecond ▸ hhead⟩
  | feed hfiller h ih =>
    have hrest (hfilled : _ ≠ []) :=
      (ih ((List.getLast?_cons_of_ne_nil hfilled).symm.trans hlast)).1
    exact ⟨h.respaced_append (.inl rfl) (.inl rfl) hfiller hrest,
      fun _ _ => h.respaced_append (.inr rfl) (.inr rfl) hfiller hrest⟩
  | feedReturn hfiller h ih =>
    have hrest (hfilled : _ ≠ []) :=
      (ih ((List.getLast?_cons_of_ne_nil hfilled).symm.trans hlast)).1
    exact ⟨h.respaced_append (.inl rfl) (.inr rfl) hfiller hrest, fun h => nomatch h⟩

theorem refl (returned : Bool) (text : List Char) : RefilledFrom returned text text := by
  induction text generalizing returned with
  | nil => exact .nil
  | cons c text ih =>
    by_cases hc : c = '\n'
    · subst hc
      exact .feed .nil (ih false)
    · exact .char hc (ih _)

/-- What stands on a line is the same in both texts. -/
theorem append_line {line : List Char} (hline : ∀ c ∈ line, c ≠ '\n' ∧ c ≠ '\r')
    (h : RefilledFrom false text text') : RefilledFrom false (line ++ text) (line ++ text') := by
  induction line with
  | nil => exact h
  | cons c line ih =>
    obtain ⟨hc, hline⟩ := List.forall_mem_cons.1 hline
    exact .char hc.1 (beq_eq_false_iff_ne.2 hc.2 ▸ ih hline)

/-- A line feed at the end makes no difference. -/
theorem concat (h : RefilledFrom returned text text') :
    RefilledFrom returned (text ++ [('\n' : Char)]) (text' ++ [('\n' : Char)]) := by
  induction h with
  | nil => exact .feed .nil .nil
  | char hc _ ih => exact .char hc ih
  | feed hfiller _ ih =>
    rw [List.cons_append, List.cons_append, List.append_assoc]
    exact .feed hfiller ih
  | feedReturn hfiller _ ih =>
    rw [List.cons_append, List.cons_append, List.cons_append, List.append_assoc]
    exact .feedReturn hfiller ih

theorem getLast?_eq (h : RefilledFrom returned text text') : text'.getLast? = text.getLast? := by
  induction h with
  | nil => rfl
  | char _ _ ih => rw [List.getLast?_cons, List.getLast?_cons, ih]
  | feed hfiller _ ih =>
    rw [List.getLast?_cons, hfiller.getLast?_append_getD, ih, List.getLast?_cons]
  | feedReturn hfiller _ ih =>
    rw [List.getLast?_cons, List.getLast?_cons, hfiller.getLast?_append_getD, ih,
      List.getLast?_cons]
    rfl

/-- The final line feeds that the texts may lack make no difference. -/
theorem terminate (h : RefilledFrom returned text text') :
    RefilledFrom returned (Lines.terminate text) (Lines.terminate text') := by
  unfold Lines.terminate
  rw [h.getLast?_eq]
  split
  · exact h
  · exact h.concat

end RefilledFrom

theorem getLast?_terminate (text : List Char) :
    (Lines.terminate text).getLast? = some ('\n' : Char) := by
  unfold Lines.terminate
  split
  · next h => exact beq_iff_eq.1 h
  · exact List.getLast?_concat ..

/-- Refilled texts go on alike from their next lines. -/
theorem Refilled.continues (h : Refilled text text') :
    Continues [] (nextLine (Lines.terminate text)) (nextLine (Lines.terminate text')) := by
  cases h with
  | @mk filler _ text' hfiller h =>
    by_cases htext : text' = []
    · subst htext
      cases h
      refine .inr ⟨rfl, ?_⟩
      rw [List.append_nil]
      unfold Lines.terminate
      split
      · have hnext := nextLine_filler hfiller []
        rwa [List.append_nil] at hnext
      · exact nextLine_filler hfiller ['\n']
    · have hlast : (filler ++ text').getLast? = text'.getLast? :=
        List.getLast?_append_of_ne_nil filler htext
      have hterminate : Lines.terminate (filler ++ text') = filler ++ Lines.terminate text' := by
        unfold Lines.terminate
        rw [hlast]
        split
        · rfl
        · exact List.append_assoc ..
      have hrespaced := (h.terminate.respaced [] (getLast?_terminate _)).1
      rw [List.append_nil] at hrespaced
      rw [hterminate, nextLine_filler hfiller]
      exact hrespaced.nextLine

end CommandSequence.Source
