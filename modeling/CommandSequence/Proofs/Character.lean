import CommandSequence.Character.Blank
import CommandSequence.Document.Basic
import CommandSequence.Source.Terminal
import Mathlib.Data.Bool.AllAny

/-!
# Classes of characters

The ASCII classes as ranges of code points. A digit of another script lies above all of them, so on
ASCII characters the two notions of a digit agree (`isDigit_eq_isAsciiDigit`) and no letter is a
digit (`not_isDigit_of_isWordStart`).
-/

namespace CommandSequence.Character

theorem isAsciiDigit_iff {c : Char} : isAsciiDigit c = true ↔ 48 ≤ c.toNat ∧ c.toNat ≤ 57 := by
  simp only [isAsciiDigit, Bool.and_eq_true, decide_eq_true_eq]
  exact Iff.rfl

theorem isWord_iff {c : Char} : isWord c = true ↔
    (48 ≤ c.toNat ∧ c.toNat ≤ 57) ∨ (65 ≤ c.toNat ∧ c.toNat ≤ 90) ∨ (97 ≤ c.toNat ∧ c.toNat ≤ 122)
      ∨ c.toNat = 95 := by
  simp only [isWord, Bool.or_eq_true, isAsciiDigit_iff, Bool.and_eq_true, decide_eq_true_eq,
    beq_iff_eq, ← Char.toNat_inj, or_assoc]
  exact Iff.rfl

theorem isWordStart_iff {c : Char} : isWordStart c = true ↔
    (65 ≤ c.toNat ∧ c.toNat ≤ 90) ∨ (97 ≤ c.toNat ∧ c.toNat ≤ 122) ∨ c.toNat = 95 := by
  simp only [isWordStart, Bool.and_eq_true, isWord_iff, Bool.not_eq_true', Bool.eq_false_iff, ne_eq,
    isAsciiDigit_iff]
  omega

theorem isWord_of_isWordStart {c : Char} (h : isWordStart c = true) : isWord c = true := by
  rw [isWordStart_iff] at h
  rw [isWord_iff]
  omega

/-- Hexadecimal digits are word characters. -/
theorem isWord_of_hexValue? {c : Char} (h : (hexValue? c).isSome = true) : isWord c = true := by
  have hrange {low high : Char} (hc : (low ≤ c && c ≤ high) = true) :
      low.toNat ≤ c.toNat ∧ c.toNat ≤ high.toNat := by
    simp only [Bool.and_eq_true, decide_eq_true_eq] at hc
    exact hc
  rw [isWord_iff]
  unfold hexValue? at h
  split at h
  · next hc => exact .inl (hrange hc)
  · split at h
    · next hc => have := hrange hc; simp only [Char.toNat_scalar, Char.reduceToNat] at this; omega
    · split at h
      · next hc => have := hrange hc; simp only [Char.toNat_scalar, Char.reduceToNat] at this; omega
      · cases h

/-- Every zero but the ASCII one lies above ASCII. -/
theorem zero_of_mem_digitZeros {z : Nat} (h : z ∈ digitZeros) : z = 48 ∨ 128 ≤ z := by
  revert z
  decide

/-- The value of an ASCII digit is its distance from `0`. -/
theorem digitValue?_of_isAsciiDigit {c : Char} (h : isAsciiDigit c = true) :
    digitValue? c = some (c.toNat - 48) := by
  obtain ⟨hlow, hhigh⟩ := isAsciiDigit_iff.1 h
  have hfind : digitZeros.find? (fun z => z ≤ c.toNat && c.toNat < z + 10) = some 48 := by
    simp only [digitZeros, List.find?_cons]
    rw [show (decide (48 ≤ c.toNat) && decide (c.toNat < 48 + 10)) = true by simp; omega]
  simp [digitValue?, hfind]

theorem isDigit_of_isAsciiDigit {c : Char} (h : isAsciiDigit c = true) : isDigit c = true := by
  simp [isDigit, digitValue?_of_isAsciiDigit h]

/-- On ASCII characters the digits of all scripts are the ASCII digits. -/
theorem isDigit_eq_isAsciiDigit {c : Char} (h : c.toNat < 128) : isDigit c = isAsciiDigit c := by
  rw [Bool.eq_iff_iff]
  refine ⟨fun hd => ?_, isDigit_of_isAsciiDigit⟩
  simp only [isDigit, digitValue?, Option.isSome_map, List.find?_isSome, Bool.and_eq_true,
    decide_eq_true_eq] at hd
  obtain ⟨z, hz, hle, hlt⟩ := hd
  rw [isAsciiDigit_iff]
  rcases zero_of_mem_digitZeros hz with rfl | hz
  · omega
  · omega

/-- No character that begins a word is a digit. -/
theorem not_isDigit_of_isWordStart {c : Char} (h : isWordStart c = true) : isDigit c = false := by
  have hc := isWordStart_iff.1 h
  rw [isDigit_eq_isAsciiDigit (by omega), Bool.eq_false_iff, ne_eq, isAsciiDigit_iff]
  omega

/-- No digit of any script is a blank. -/
theorem not_isBlank_of_isDigit {c : Char} (h : isDigit c = true) : isBlank c = false := by
  have hdigits : ∀ z ∈ digitZeros, ∀ k < 10, isBlank (Char.ofNat (z + k)) = false := by
    decide +kernel
  simp only [isDigit, digitValue?, Option.isSome_map, List.find?_isSome, Bool.and_eq_true,
    decide_eq_true_eq] at h
  obtain ⟨z, hz, hle, hlt⟩ := h
  obtain ⟨k, hk⟩ := Nat.exists_eq_add_of_le hle
  rw [← Char.ofNat_toNat c, hk]
  exact hdigits z hz k (by omega)

/-- The character that a digit is written as. -/
theorem isAsciiDigit_digitChar {d : Nat} (h : d < 10) : isAsciiDigit d.digitChar = true := by
  rw [isAsciiDigit_iff, Char.toNat_scalar, Nat.toNat_digitChar_of_lt_ten h]
  omega

theorem digitValue?_digitChar {d : Nat} (h : d < 10) : digitValue? d.digitChar = some d := by
  rw [digitValue?_of_isAsciiDigit (isAsciiDigit_digitChar h), Char.toNat_scalar,
    Nat.toNat_digitChar_of_lt_ten h, Nat.add_sub_cancel_left]

end CommandSequence.Character
