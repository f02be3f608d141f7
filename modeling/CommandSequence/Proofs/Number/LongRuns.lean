import CommandSequence.Proofs.Number.Spelling

/-!
# Long runs of digits

An integer is too long to be read only if its text has a run of more digits than are read
(`Number.hasLongRun_of_read?`). A character that is no digit bounds every run
(`Decimal.hasLongRun_append_cons`). A text that is a numeral always spells a number, be it too long
(`Number.read?_ne_none`).
-/

namespace CommandSequence

open Character (isDigit)

namespace Decimal

variable {text text' : List Char}

/-- The text has a run of more digits than are read. -/
def HasLongRun (text : List Char) : Prop :=
  ∃ run, run <:+: text ∧ (∀ c ∈ run, isDigit c = true) ∧ digitLimit < run.length

theorem HasLongRun.mono (h : HasLongRun text) (hpiece : text <:+: text') : HasLongRun text' := by
  obtain ⟨run, hrun, hdigits, hlong⟩ := h
  exact ⟨run, hrun.trans hpiece, hdigits, hlong⟩

theorem not_hasLongRun_of_length (h : text.length ≤ digitLimit) : ¬HasLongRun text := by
  rintro ⟨run, hrun, -, hlong⟩
  have := hrun.length_le
  omega

/-- A run is on one side of a character that is no digit. -/
theorem hasLongRun_append_cons {c : Char} (hc : isDigit c = false) :
    HasLongRun (text ++ c :: text') ↔ HasLongRun text ∨ HasLongRun text' := by
  constructor
  · rintro ⟨run, ⟨before, after, heq⟩, hdigits, hlong⟩
    have hrun : c ∉ run := fun hmem => by
      rw [hdigits c hmem] at hc
      cases hc
    -- Either the run ends before the character, or it reaches up to it or beyond.
    rcases List.append_eq_append_iff.1 heq with ⟨more, rfl, -⟩ | ⟨more, hleft, hright⟩
    · exact .inl ⟨run, ⟨before, more, rfl⟩, hdigits, hlong⟩
    · cases more with
      | nil =>
        rw [List.append_nil] at hleft
        exact .inl ⟨run, ⟨before, [], by rw [List.append_nil, hleft]⟩, hdigits, hlong⟩
      | cons d more =>
        obtain ⟨rfl, rfl⟩ := List.cons.inj hright
        rcases List.append_eq_append_iff.1 hleft with ⟨rest, rfl, hrest⟩ | ⟨rest, rfl, hrest⟩
        · exact absurd (hrest ▸ List.mem_append_right rest List.mem_cons_self) hrun
        · cases rest with
          | nil =>
            obtain rfl : _ = run := hrest
            exact absurd List.mem_cons_self hrun
          | cons _ rest =>
            obtain ⟨rfl, rfl⟩ := List.cons.inj hrest
            exact .inr ⟨run, ⟨rest, after, rfl⟩, hdigits, hlong⟩
  · rintro (h | h)
    · exact h.mono (List.prefix_append ..).isInfix
    · exact h.mono ((List.suffix_cons c text').trans (List.suffix_append ..)).isInfix

end Decimal

namespace Number

open Decimal (HasLongRun)

variable {text : List Char}

theorem splitSign_suffix (text : List Char) : (splitSign text).2 <:+ text := by
  unfold splitSign
  split
  · exact List.suffix_cons ..
  · exact List.suffix_cons ..
  · exact List.suffix_rfl

theorem dropFinalNewline_isPrefix (text : List Char) : dropFinalNewline text <+: text := by
  unfold dropFinalNewline
  split
  · exact List.dropLast_prefix text
  · exact List.prefix_rfl

/-- Only a long run of digits keeps a text from being read as a number. -/
theorem hasLongRun_of_read? {e : NumberError} (h : read? text = .error e) : HasLongRun text := by
  simp only [read?] at h
  split at h
  · next hint =>
    have hdigits : ∀ c ∈ (splitSign (dropFinalNewline text)).2, isDigit c = true := by
      simp only [isIntegerNumeral, Bool.and_eq_true, List.all_eq_true] at hint
      exact hint.2
    have hlong : Decimal.digitLimit < (splitSign (dropFinalNewline text)).2.length := by
      refine Nat.lt_of_not_le fun hshort => ?_
      simp only [readInt, Decimal.value?, if_pos hshort] at h
      cases h
    exact ⟨_, (splitSign_suffix _).isInfix.trans (dropFinalNewline_isPrefix text).isInfix, hdigits,
      hlong⟩
  · split at h <;> cases h

/-- More digits than are read are too long a number. -/
theorem read?_of_digits (hdigits : ∀ c ∈ text, isDigit c = true)
    (hlong : Decimal.digitLimit < text.length) : read? text = .error .integerTooLong := by
  have hmark {c : Char} (hc : isDigit c = false) : c ∉ text := fun hmem => by
    rw [hdigits c hmem] at hc
    cases hc
  have hlast : dropFinalNewline text = text := dropFinalNewline_of_notMem (hmark (by decide))
  have hsign : splitSign text = (false, text) := by
    unfold splitSign
    split
    · exact absurd List.mem_cons_self (hmark (c := '-') (by decide))
    · exact absurd List.mem_cons_self (hmark (c := '+') (by decide))
    · rfl
  have hint : isIntegerNumeral text = true := by
    have hfilled : text.isEmpty = false :=
      List.isEmpty_eq_false_iff.2 (List.ne_nil_of_length_pos (by omega))
    simp only [isIntegerNumeral, hsign, hfilled, Bool.not_false, Bool.true_and, List.all_eq_true]
    exact hdigits
  have hvalue : Decimal.value? text = none := if_neg (by omega)
  simp only [read?, hlast, hint, if_true, readInt, hsign, hvalue, Except.map]

theorem newline_not_mem_of_accepts {stage : Numeral.Stage} (h : stage.accepts text = true) :
    ('\n' : Char) ∉ text := by
  induction text generalizing stage with
  | nil => exact List.not_mem_nil
  | cons c text ih =>
    unfold Numeral.Stage.accepts at h
    split at h
    · next next hnext =>
      have hstop : stage.next? '\n' = none := by cases stage <;> decide
      have hc : '\n' ≠ c := by
        rintro rfl
        rw [hstop] at hnext
        cases hnext
      exact fun hmem => (List.mem_cons.1 hmem).elim hc (ih h)
    · cases h

/-- A numeral spells a number, unless it is too long. -/
theorem read?_ne_none (h : Numeral.accepts text = true) : read? text ≠ .ok none := by
  have hlast : dropFinalNewline text = text :=
    dropFinalNewline_of_notMem (newline_not_mem_of_accepts h)
  simp only [read?, hlast, h, if_true]
  split
  · cases readInt text <;> simp [Except.map]
  · simp

end Number

end CommandSequence
